import Mathlib.Order.Bounds.Basic
import Notebook.Proofs.Statements

/-!
# Pairs of brackets

The bracket that closes another is found by counting, with all kinds of brackets alike.  It is
the first token up to which as many brackets close as open.  Up to there more brackets open
than close, and from this alone no two pairs cross.  That a pair is of one kind is not seen by
the count: it holds where the brackets of the text are nested kind by kind.

## Main statements

* `Source.closingIndex_level`, `Source.closings_lt`: the count where it stops, and before
* `Source.exists_closing`: in nested brackets it stops at the right kind
* `Source.matching_pairs`: brackets are paired rightly
-/

namespace Notebook

open List

variable {ts : List Token} {depth k : Nat}

/-! ### Counting brackets -/

/-- The number of opening brackets. -/
def openings (ts : List Token) : Nat :=
  ts.countP (·.kind.opens)

/-- The number of closing brackets. -/
def closings (ts : List Token) : Nat :=
  ts.countP (·.kind.closes)

theorem openings_cons (t : Token) (ts : List Token) :
    openings (t :: ts) = openings ts + if t.kind.opens then 1 else 0 :=
  countP_cons

theorem closings_cons (t : Token) (ts : List Token) :
    closings (t :: ts) = closings ts + if t.kind.closes then 1 else 0 :=
  countP_cons

theorem openings_append (ts us : List Token) :
    openings (ts ++ us) = openings ts + openings us :=
  countP_append

theorem closings_append (ts us : List Token) :
    closings (ts ++ us) = closings ts + closings us :=
  countP_append

theorem TokenKind.closes_of_opens {k : TokenKind} (h : k.opens = true) :
    k.closes = false := by
  cases k with
  | opening b => rfl
  | _ => cases h

/-- The brackets that are open behind a token, the innermost first, if the token closes none
or the innermost and is of its kind. -/
def openAfter (stack : List Bracket) : TokenKind → Option (List Bracket)
  | .opening b => some (b :: stack)
  | .closing b =>
    match stack with
    | [] => none
    | a :: rest => if a = b then some rest else none
  | _ => some stack

/-- Brackets are nested by kind: every closing bracket closes the innermost one that is open
and is of its kind, and none stays open. -/
def Nested (ks : List TokenKind) : Prop :=
  ks.foldlM openAfter [] = some []

instance (ks : List TokenKind) : Decidable (Nested ks) :=
  inferInstanceAs (Decidable (_ = _))

/-- Two pairs of token numbers, one inside the other or side by side. -/
def Uncrossed (p q : Nat × Nat) : Prop :=
  p.2 < q.1 ∨ q.2 < p.1 ∨ (p.1 < q.1 ∧ q.2 < p.2) ∨ (q.1 < p.1 ∧ p.2 < q.2)

namespace Source

/-! ### The count and where it stops -/

/-- Where the count goes on, the depth tells how many more brackets open than close. -/
theorem depthAfter_count {t : Token} (hdepth : 0 < depth)
    (hgoes : ¬(t.kind.closes && depth - 1 == 0) = true) :
    0 < depthAfter depth t.kind ∧
      depthAfter depth t.kind + (if t.kind.closes then 1 else 0) =
        depth + if t.kind.opens then 1 else 0 := by
  cases hk : t.kind with
  | opening b => exact ⟨Nat.succ_pos depth, rfl⟩
  | closing b =>
    have hne : depth - 1 ≠ 0 := by simpa [hk, TokenKind.closes] using hgoes
    have hafter : depthAfter depth (.closing b) = depth - 1 := rfl
    rw [hafter]
    exact ⟨by omega, by simp [TokenKind.opens, TokenKind.closes]; omega⟩
  | _ => exact ⟨hdepth, rfl⟩

/-- Where the count stops as many brackets have closed as were open or opened. -/
theorem closingIndex_level {j : Nat} (hdepth : 0 < depth)
    (h : closingIndex depth ts = some j) :
    depth + openings (ts.take (j + 1)) = closings (ts.take (j + 1)) := by
  induction ts generalizing depth j with
  | nil => cases h
  | cons t ts ih =>
    rw [closingIndex] at h
    split at h
    next hstop =>
      cases h
      obtain ⟨hcloses, hzero⟩ := Bool.and_eq_true_iff.1 hstop
      have hopens : t.kind.opens = false := by
        cases hopens : t.kind.opens with
        | false => rfl
        | true =>
          rw [TokenKind.closes_of_opens hopens] at hcloses
          cases hcloses
      have hone : depth - 1 = 0 := by simpa using hzero
      rw [take_succ_cons, take_zero, openings_cons, closings_cons, hcloses, hopens]
      simp only [openings, closings, countP_nil, if_true, Bool.false_eq_true, if_false]
      omega
    next hgoes =>
      obtain ⟨k, hk, rfl⟩ := Option.map_eq_some_iff.1 h
      obtain ⟨hpos, hcount⟩ := depthAfter_count hdepth hgoes
      have hlevel := ih hpos hk
      rw [take_succ_cons, openings_cons, closings_cons]
      omega

/-- Before the count stops, fewer brackets have closed than were open or opened. -/
theorem closings_lt (hdepth : 0 < depth) (h : ∀ j, closingIndex depth ts = some j → k < j) :
    closings (ts.take (k + 1)) < depth + openings (ts.take (k + 1)) := by
  induction ts generalizing depth k with
  | nil => simpa [openings, closings] using hdepth
  | cons t ts ih =>
    rw [closingIndex] at h
    split at h
    next => exact absurd (h 0 rfl) (Nat.not_lt_zero k)
    next hgoes =>
      obtain ⟨hpos, hcount⟩ := depthAfter_count hdepth hgoes
      have hrest : closings (ts.take k) < depthAfter depth t.kind + openings (ts.take k) := by
        cases k with
        | zero => simpa [openings, closings] using hpos
        | succ k =>
          refine ih hpos fun j hj => ?_
          have := h (j + 1) (by rw [hj]; rfl)
          omega
      rw [take_succ_cons, openings_cons, closings_cons]
      omega

/-- In nested brackets the count for an open bracket stops, and does so at a bracket of its
kind. -/
theorem exists_closing (inner : List Bracket) {outer : List Bracket} {b : Bracket}
    (h : (ts.map Token.kind).foldlM openAfter (inner ++ b :: outer) = some []) :
    ∃ j, closingIndex (inner.length + 1) ts = some j ∧ ts[j]?.map Token.kind =
      some (.closing b) := by
  -- The brackets opened since stand on the stack above it, and the depth is their number.
  induction ts generalizing inner with
  | nil => simp at h
  | cons t ts ih =>
    rw [map_cons, foldlM_cons] at h
    obtain ⟨stack, hstack, hrest⟩ := Option.bind_eq_some_iff.1 h
    have hon : ∀ inner' : List Bracket, stack = inner' ++ b :: outer →
        ¬(t.kind.closes && inner.length + 1 - 1 == 0) = true →
        depthAfter (inner.length + 1) t.kind = inner'.length + 1 →
        ∃ j, closingIndex (inner.length + 1) (t :: ts) = some j ∧
          (t :: ts)[j]?.map Token.kind = some (.closing b) := by
      intro inner' hinner hgoes hdepth
      obtain ⟨j, hj, hkind⟩ := ih inner' (hinner ▸ hrest)
      refine ⟨j + 1, ?_, by simpa using hkind⟩
      rw [closingIndex, if_neg hgoes, hdepth, hj]
      rfl
    cases hk : t.kind with
    | opening c =>
      rw [hk] at hstack
      refine hon (c :: inner) (Option.some.inj hstack).symm
        (by rw [hk]; simp [TokenKind.closes]) ?_
      rw [hk]
      rfl
    | closing c =>
      rw [hk] at hstack
      cases inner with
      | nil =>
        obtain ⟨rfl, -⟩ : b = c ∧ outer = stack := by simpa [openAfter] using hstack
        refine ⟨0, ?_, by simp [hk]⟩
        rw [closingIndex, hk]
        rfl
      | cons a inner =>
        obtain ⟨-, hinner⟩ : a = c ∧ inner ++ b :: outer = stack := by
          simpa [openAfter] using hstack
        refine hon inner hinner.symm (by simp) ?_
        rw [hk]
        rfl
    | _ =>
      rw [hk] at hstack
      refine hon inner (Option.some.inj hstack).symm (by rw [hk]; simp [TokenKind.closes]) ?_
      rw [hk]
      rfl

/-! ### The brackets of a source -/

variable {s : Source} {i j : Nat}

section

variable (h : (s.kindAt i).opens = true)
include h

theorem exists_token_of_opens : ∃ t, s.tokens[i]? = some t ∧ s.kindAt i = t.kind := by
  cases ht : s.tokens[i]? with
  | none =>
    rw [kindAt, ht] at h
    cases h
  | some t => exact ⟨t, rfl, by rw [kindAt, ht]; rfl⟩

/-- The search for a closing bracket begins behind the opening one, with one bracket open. -/
theorem matching_eq :
    s.matching i = (closingIndex 1 (s.tokens.drop (i + 1))).map (· + (i + 1)) := by
  obtain ⟨t, ht, hkind⟩ := exists_token_of_opens h
  rw [hkind] at h
  obtain ⟨hlt, rfl⟩ := List.getElem?_eq_some_iff.1 ht
  have hdepth : depthAfter 0 s.tokens[i].kind = 1 := by rw [depthAfter, if_pos h]
  rw [matching, drop_eq_getElem_cons hlt, closingIndex,
    TokenKind.closes_of_opens h, hdepth, Bool.false_and, if_neg Bool.false_ne_true,
    Option.map_map]
  congr 1
  funext k
  simp only [Function.comp_apply]
  omega

/-- The tokens from an opening bracket up to and with a later token. -/
theorem segment_of_opens (k : Nat) :
    openings (s.segment i (i + 1 + k)) = 1 + openings ((s.tokens.drop (i + 1)).take (k + 1)) ∧
      closings (s.segment i (i + 1 + k)) =
        closings ((s.tokens.drop (i + 1)).take (k + 1)) := by
  obtain ⟨t, ht, hkind⟩ := exists_token_of_opens h
  rw [hkind] at h
  obtain ⟨hlt, rfl⟩ := List.getElem?_eq_some_iff.1 ht
  have hlength : i + 1 + k + 1 - i = k + 1 + 1 := by omega
  rw [segment, hlength, drop_eq_getElem_cons hlt, take_succ_cons, openings_cons,
    closings_cons, TokenKind.closes_of_opens h, if_pos h, if_neg Bool.false_ne_true]
  exact ⟨Nat.add_comm .., rfl⟩

/-- From an opening bracket up to and with the one that closes it as many close as open. -/
theorem level_of_matching (hj : s.matching i = some j) :
    i < j ∧ openings (s.segment i j) = closings (s.segment i j) := by
  rw [matching_eq h] at hj
  obtain ⟨k, hk, rfl⟩ := Option.map_eq_some_iff.1 hj
  obtain ⟨hopenings, hclosings⟩ := segment_of_opens h k
  rw [Nat.add_comm k, hopenings, hclosings]
  exact ⟨by omega, closingIndex_level Nat.one_pos hk⟩

/-- As long as a bracket is open more brackets open than close. -/
theorem closings_lt_openings (hik : i ≤ k) (hk : ∀ j, s.matching i = some j → k < j) :
    closings (s.segment i k) < openings (s.segment i k) := by
  rcases Nat.eq_or_lt_of_le hik with rfl | hlt
  · obtain ⟨t, ht, hkind⟩ := exists_token_of_opens h
    obtain ⟨hlt, rfl⟩ := List.getElem?_eq_some_iff.1 ht
    rw [hkind] at h
    have hone : i + 1 - i = 0 + 1 := by omega
    rw [segment, hone, drop_eq_getElem_cons hlt, take_succ_cons, take_zero,
      openings_cons, closings_cons, TokenKind.closes_of_opens h, h]
    decide
  · obtain ⟨k, rfl⟩ := Nat.exists_eq_add_of_le hlt
    obtain ⟨hopenings, hclosings⟩ := segment_of_opens h k
    rw [hopenings, hclosings]
    refine closings_lt Nat.one_pos fun j hj => ?_
    have := hk (j + (i + 1)) (by rw [matching_eq h, hj]; rfl)
    omega

end

theorem segment_append (hij : i ≤ j) (hjk : j ≤ k) :
    s.segment i k = s.segment i j ++ s.segment (j + 1) k := by
  have hlength : k + 1 - i = (j + 1 - i) + (k + 1 - (j + 1)) := by omega
  have hdrop : i + (j + 1 - i) = j + 1 := by omega
  rw [segment, segment, segment, hlength, take_add, drop_drop, hdrop]

/-- A bracket that opens while another is open closes before it. -/
theorem lt_of_matching_inside {i' j' : Nat} (h : (s.kindAt i).opens = true)
    (h' : (s.kindAt i').opens = true) (hj : s.matching i = some j)
    (hj' : s.matching i' = some j') (hlt : i < i') (hle : i' ≤ j) : j' < j := by
  obtain ⟨i', rfl⟩ := Nat.exists_eq_add_of_lt hlt
  -- Between the two opening brackets more open than close, so from the second up to the end
  -- of the first pair more close than open.
  have hbetween := closings_lt_openings h (k := i + i') (by omega) fun m hm => by
    cases hj.symm.trans hm
    omega
  have hlevel := (level_of_matching h hj).2
  rw [segment_append (show i ≤ i + i' by omega) (by omega), openings_append, closings_append]
    at hlevel
  have hinner := (level_of_matching h' hj').2
  rcases Nat.lt_trichotomy j' j with hbefore | rfl | hbehind
  · exact hbefore
  · omega
  · have hopen := closings_lt_openings h' (k := j) hle fun m hm => by
      cases hj'.symm.trans hm
      exact hbehind
    omega

/-- **Brackets are paired rightly.**  The partner that `matching` finds for an opening bracket
is the first token up to which there are as many `closings` as `openings`; different brackets
have different partners, and two pairs are `Uncrossed`; and in a text whose brackets are
`Nested` by kind every opening bracket has a partner, of its own kind. -/
theorem matching_pairs (s : Source) :
    (∀ i j, (s.kindAt i).opens = true → (s.matching i = some j ↔
      IsLeast {k | i ≤ k ∧ k < s.tokens.length ∧
        openings (s.segment i k) = closings (s.segment i k)} j)) ∧
    (∀ i j i' j', (s.kindAt i).opens = true → (s.kindAt i').opens = true →
      s.matching i = some j → s.matching i' = some j' → i ≠ i' →
        j ≠ j' ∧ Uncrossed (i, j) (i', j')) ∧
    (Nested (s.tokens.map Token.kind) → ∀ i b, s.kindAt i = .opening b →
      ∃ j, s.matching i = some j ∧ s.kindAt j = .closing b) := by
  refine ⟨?_, ?_, ?_⟩
  · intro i j hopens
    have hleast : ∀ {j}, s.matching i = some j → IsLeast {k | i ≤ k ∧ k < s.tokens.length ∧
        openings (s.segment i k) = closings (s.segment i k)} j := by
      intro j hj
      obtain ⟨hlt, hlevel⟩ := level_of_matching hopens hj
      refine ⟨⟨Nat.le_of_lt hlt, (matching_lt hj).2, hlevel⟩, ?_⟩
      rintro k ⟨hik, -, hk⟩
      by_contra hjk
      have := closings_lt_openings hopens hik fun m hm => by
        cases hj.symm.trans hm
        omega
      omega
    refine ⟨hleast, fun hj => ?_⟩
    -- A level place shows that the search ends, and it ends at the least one.
    cases hmatching : s.matching i with
    | none =>
      obtain ⟨hik, -, hk⟩ := hj.1
      have := closings_lt_openings hopens hik fun m hm => by
        rw [hmatching] at hm
        cases hm
      omega
    | some m => rw [(hleast hmatching).unique hj]
  · intro i j i' j' hopens hopens' hj hj' hne
    have hbehind := (level_of_matching hopens hj).1
    have hbehind' := (level_of_matching hopens' hj').1
    have huncrossed : ∀ {i j i' j'}, (s.kindAt i).opens = true → (s.kindAt i').opens = true →
        s.matching i = some j → s.matching i' = some j' → i < i' → j < i' ∨ j' < j := by
      intro i j i' j' hopens hopens' hj hj' hlt
      by_cases hle : i' ≤ j
      · exact .inr (lt_of_matching_inside hopens hopens' hj hj' hlt hle)
      · exact .inl (by omega)
    unfold Uncrossed
    rcases Nat.lt_or_gt_of_ne hne with hlt | hlt
    · have := huncrossed hopens hopens' hj hj' hlt
      omega
    · have := huncrossed hopens' hopens hj' hj hlt
      omega
  · intro hnested i b hb
    have hopens : (s.kindAt i).opens = true := by rw [hb]; rfl
    obtain ⟨t, ht, hkind⟩ := exists_token_of_opens hopens
    obtain ⟨hlt, rfl⟩ := List.getElem?_eq_some_iff.1 ht
    -- The bracket is pushed on the stack of those that are open in front of it.
    rw [Nested, ← take_append_drop i s.tokens, map_append, foldlM_append,
      drop_eq_getElem_cons hlt] at hnested
    obtain ⟨outer, -, hrest⟩ := Option.bind_eq_some_iff.1 hnested
    rw [map_cons, ← hkind, hb, foldlM_cons] at hrest
    obtain ⟨k, hk, hclosing⟩ := exists_closing [] hrest
    rw [length_nil, Nat.zero_add] at hk
    refine ⟨k + (i + 1), by rw [matching_eq hopens, hk]; rfl, ?_⟩
    rw [getElem?_drop] at hclosing
    rw [kindAt, Nat.add_comm, hclosing]
    rfl

/-- Nested brackets of three kinds. -/
theorem matching_pairs_nested :
    let s := Source.ofText "f(a[1], m\x7b2\x7d)".toList
    Nested (s.tokens.map Token.kind) ∧
      (∃ j, s.matching 1 = some j ∧ s.kindAt j = .closing .paren) ∧
      (∃ j, s.matching 3 = some j ∧ s.kindAt j = .closing .square) ∧
      ∃ j, s.matching 8 = some j ∧ s.kindAt j = .closing .brace := by
  intro s
  have hkinds :
    s.tokens.map Token.kind = [.ident, .opening .paren, .ident, .opening .square, .int,
      .closing .square, .comma, .ident, .opening .brace, .int, .closing .brace,
      .closing .paren,
      .semi, .eof] := by decide +kernel
  have hkindAt : ∀ i, s.kindAt i = (s.tokens.map Token.kind)[i]?.getD .eof := by
    intro i
    rw [kindAt, getElem?_map]
  have hnested : Nested (s.tokens.map Token.kind) := by
    rw [hkinds]
    decide
  have hpaired := (matching_pairs s).2.2 hnested
  refine ⟨hnested, hpaired 1 _ ?_, hpaired 3 _ ?_, hpaired 8 _ ?_⟩ <;>
    rw [hkindAt, hkinds] <;> rfl

end Source

end Notebook
