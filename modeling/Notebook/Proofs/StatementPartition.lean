import Mathlib.Data.List.Pairwise
import Notebook.Proofs.Statements

/-!
# Statements divide the tokens among them

The walk that splits tokens into statements lets no token get lost.  A token is taken into the
statement that is not ended yet, or it ends it, or no statement is begun and it is a
semicolon.  What carries this is that the statement that is not ended yet reaches up to the
token in front of the walk: then a semicolon that ends it stands right behind it, and nothing
lies between.

## Main statements

* `Source.SplitState.Reaches.take`, `Source.SplitState.Reaches.exists_holds`: one step of the
  walk
* `Source.exists_holds_or_semi`, `Source.terminator_eq_of_mem_split`,
  `Source.terminator_isSome_of_mem_dropLast`: what a whole walk leaves
* `Source.statementsIn_partition`: the statements of a range are a partition
-/

namespace Notebook

open List

variable {ts : List Token} {i k : Nat} {x : Statement}

/-- A token is one of the tokens of a statement. -/
def Statement.Holds (st : Statement) (i : Nat) : Prop :=
  st.first ≤ i ∧ i ≤ st.last

namespace Source

/-- Statements that divide the tokens numbered from `first` up to but without `stop`. -/
structure Partition (s : Source) (first stop : Nat) (sts : List Statement) : Prop where
  /-- Statements are intervals of the range. -/
  bounds : ∀ st ∈ sts, first ≤ st.first ∧ st.first ≤ st.last ∧ st.last < stop
  /-- They are in order and disjoint. -/
  ordered : sts.Pairwise fun x y => x.last < y.first
  /-- A token in front of the end is in one of them, or it is a semicolon outside all. -/
  covered : ∀ i, first ≤ i → i < stop → (∀ k, first ≤ k → k ≤ i → s.kindAt k ≠ .eof) →
    (∃! st, st ∈ sts ∧ st.Holds i) ∨ (s.kindAt i = .semi ∧ ∀ st ∈ sts, ¬st.Holds i)
  front : ∀ st ∈ sts, s.kindAt st.first ≠ .semi ∧ s.kindAt st.first ≠ .eof
  terminator : ∀ st ∈ sts, ∀ i, st.terminator = some i →
    i = st.last + 1 ∧ i < stop ∧ s.kindAt i = .semi
  /-- Only the last one can lack a terminator. -/
  ended : ∀ st ∈ sts.dropLast, st.terminator.isSome = true

/-! ### One step of the walk -/

namespace SplitState

/-- The statement that is not ended yet reaches up to the token in front of number `i`. -/
def Reaches (st : SplitState) (i : Nat) : Prop :=
  ∀ c, st.current = some c → c.last + 1 = i

theorem reaches_of_none {st : SplitState} (h : st.current = none) (i : Nat) :
    st.Reaches i := by
  intro c hc
  rw [h] at hc
  cases hc

theorem Reaches.take (st : SplitState) (i : Nat) (t : Token) :
    (st.take i t).Reaches (i + 1) := by
  intro c hc
  obtain rfl := Option.some.inj hc
  cases st.current <;> rfl

/-- A token that is taken in does not change where the statement begins. -/
theorem floor_take (st : SplitState) (i : Nat) (t : Token) :
    (st.take i t).floor (i + 1) = st.floor i := by
  cases hcur : st.current <;> simp [floor, SplitState.take, hcur]

/-- A statement that is ended has all tokens from where it begins up to the walk. -/
theorem Reaches.exists_holds {st : SplitState} (h : st.Reaches i) (hfloor : st.floor i ≤ k)
    (hk : k < i) (terminator : Option Nat) : ∃ x ∈ st.close terminator, x.Holds k := by
  cases hcur : st.current with
  | none =>
    rw [floor, hcur] at hfloor
    exact absurd hk (Nat.not_lt.2 hfloor)
  | some c =>
    have hlast := h c hcur
    rw [floor, hcur] at hfloor
    refine ⟨⟨c.first, c.last, c.span, terminator⟩, by simp [close, hcur], hfloor, ?_⟩
    simp only
    omega

theorem Reaches.last_of_mem_close {st : SplitState} (h : st.Reaches i)
    {terminator : Option Nat} (hx : x ∈ st.close terminator) :
    x.last + 1 = i ∧ x.terminator = terminator := by
  cases hcur : st.current with
  | none => simp [close, hcur] at hx
  | some c =>
    obtain rfl : x = ⟨c.first, c.last, c.span, terminator⟩ := by simpa [close, hcur] using hx
    exact ⟨h c hcur, rfl⟩

theorem dropLast_close (st : SplitState) (terminator : Option Nat) :
    (st.close terminator).dropLast = [] := by
  cases hcur : st.current <;> simp [close, hcur]

end SplitState

open SplitState

/-! ### The whole walk -/

/-- No token gets lost on the walk, from where the statement that is not ended begins. -/
theorem exists_holds_or_semi {st : SplitState} (h : st.Reaches i) (hfloor : st.floor i ≤ k)
    (hk : k < i + ts.length) (heof : ∀ j t, ts[j]? = some t → i + j ≤ k → t.kind ≠ .eof) :
    (∃ x ∈ split i st ts, x.Holds k) ∨ ∃ j t, ts[j]? = some t ∧ i + j = k ∧
      t.kind = .semi := by
  induction ts generalizing i st with
  | nil => exact .inl (h.exists_holds hfloor (by simpa using hk) none)
  | cons t ts ih =>
    rw [length_cons] at hk
    have htail : ∀ j u, ts[j]? = some u → i + 1 + j ≤ k → u.kind ≠ .eof := by
      intro j u hu hj
      exact heof (j + 1) u (by simpa using hu) (by omega)
    have hback : (∃ j u, ts[j]? = some u ∧ i + 1 + j = k ∧ u.kind = .semi) →
        ∃ j u, (t :: ts)[j]? = some u ∧ i + j = k ∧ u.kind = .semi := by
      rintro ⟨j, u, hu, hj, hsemi⟩
      exact ⟨j + 1, u, by simpa using hu, by omega, hsemi⟩
    rw [split]
    split
    next hend =>
      have hlt : k < i := by
        by_contra hle
        exact heof 0 t rfl (by omega) hend
      exact .inl (h.exists_holds hfloor hlt none)
    next =>
      split
      next hsplit =>
        rcases Nat.lt_trichotomy k i with hlt | rfl | hgt
        · obtain ⟨x, hx, hholds⟩ := h.exists_holds hfloor hlt (some i)
          exact .inl ⟨x, mem_append_left _ hx, hholds⟩
        · exact .inr ⟨0, t, rfl, rfl, (Open.split [] 0 hsplit).1⟩
        · -- Behind the semicolon no statement is begun.
          have hnone : Reaches ⟨st.depth, st.header, none⟩ (i + 1) :=
            reaches_of_none rfl (i + 1)
          have hnext : k < i + 1 + ts.length := by omega
          rcases ih hnone hgt hnext htail with ⟨x, hx, hholds⟩ | hsemi
          · exact .inl ⟨x, mem_append_right _ hx, hholds⟩
          · exact .inr (hback hsemi)
      next =>
        have hnext : k < i + 1 + ts.length := by omega
        exact (ih (Reaches.take st i t) (by rwa [floor_take]) hnext htail).imp_right hback

/-- The semicolon that ends a statement stands right behind it. -/
theorem terminator_eq_of_mem_split {st : SplitState} (h : st.Reaches i)
    (hx : x ∈ split i st ts) {j : Nat} (hj : x.terminator = some j) :
    j = x.last + 1 ∧ j < i + ts.length := by
  have hopen : ∀ {i : Nat} {st : SplitState}, st.Reaches i → x ∉ st.close none := by
    intro i st h hx
    rw [(h.last_of_mem_close hx).2] at hj
    cases hj
  induction ts generalizing i st with
  | nil => exact absurd hx (hopen h)
  | cons t ts ih =>
    rw [length_cons]
    rw [split] at hx
    split at hx
    next => exact absurd hx (hopen h)
    next =>
      split at hx
      next =>
        rcases mem_append.1 hx with hx | hx
        · obtain ⟨hlast, hterm⟩ := h.last_of_mem_close hx
          rw [hterm] at hj
          cases hj
          omega
        · obtain ⟨heq, hlt⟩ := ih (reaches_of_none rfl (i + 1)) hx
          omega
      next =>
        obtain ⟨heq, hlt⟩ := ih (Reaches.take st i t) hx
        omega

/-- Every statement but the last one is ended by a semicolon. -/
theorem terminator_isSome_of_mem_dropLast {st : SplitState} (h : st.Reaches i)
    (hx : x ∈ (split i st ts).dropLast) : x.terminator.isSome = true := by
  induction ts generalizing i st with
  | nil =>
    rw [split, dropLast_close] at hx
    cases hx
  | cons t ts ih =>
    rw [split] at hx
    split at hx
    next =>
      rw [dropLast_close] at hx
      cases hx
    next =>
      split at hx
      next =>
        rw [dropLast_append] at hx
        split at hx
        next =>
          rw [dropLast_close] at hx
          cases hx
        next =>
          rcases mem_append.1 hx with hx | hx
          · rw [(h.last_of_mem_close hx).2]
            rfl
          · exact ih (reaches_of_none rfl (i + 1)) hx
      next => exact ih (Reaches.take st i t) hx

/-! ### The statements of a range -/

/-- **Statement splitting is a partition.**  The statements that `statementsIn` finds in a
range of tokens are a `Source.Partition` of it: disjoint intervals, in order, that begin
neither with a semicolon nor with the end; every token in front of the end is in exactly one
of them or is a semicolon outside all; and the terminator of a statement is the semicolon
right behind it, which only the last statement can lack. -/
theorem statementsIn_partition (s : Source) (first stop : Nat)
    (hstop : stop ≤ s.tokens.length) :
    ∃ sts, s.statementsIn first stop = .ok sts ∧ s.Partition first stop sts := by
  have hok : s.statementsIn first stop = .ok (s.statementsBetween first stop) :=
    if_neg (by omega)
  have hreaches : SplitState.initial.Reaches first := reaches_of_none rfl first
  have hrun := runsFrom_drop_take s.tokens first (stop - first)
  have hlength : ((s.tokens.drop first).take (stop - first)).length = stop - first := by
    rw [length_take, length_drop]
    omega
  have hordered : (s.statementsBetween first stop).Pairwise fun x y => x.last < y.first :=
    (s.pairwise_precedes first stop).imp Statement.Precedes.last_lt
  refine ⟨_, hok, ?_, hordered, ?_, ?_, ?_, ?_⟩
  · intro st hst
    obtain ⟨hstands, hfirst, hlast, -⟩ := standsIn_of_mem hst
    exact ⟨hfirst, hstands.first_le_last, hlast⟩
  · intro i hfirst hi heof
    -- Two statements that share a token do not stand one behind the other.
    have hsymm : Std.Symm fun x y : Statement => ¬(x.Holds i ∧ y.Holds i) :=
      ⟨fun _ _ h hxy => h hxy.symm⟩
    have hapart : (s.statementsBetween first stop).Pairwise fun x y =>
        ¬(x.Holds i ∧ y.Holds i) := by
      refine hordered.imp ?_
      rintro x y hlt ⟨⟨-, hx⟩, hy, -⟩
      omega
    by_cases hin : ∃ st ∈ s.statementsBetween first stop, st.Holds i
    · obtain ⟨st, hst, hholds⟩ := hin
      refine .inl ⟨st, ⟨hst, hholds⟩, ?_⟩
      rintro x ⟨hx, hxholds⟩
      by_contra hne
      exact hapart.forall hx hst hne ⟨hxholds, hholds⟩
    · refine .inr ⟨?_, fun st hst hholds => hin ⟨st, hst, hholds⟩⟩
      have hsemi := (exists_holds_or_semi hreaches hfirst (by rw [hlength]; omega) (by
        intro j t ht hj
        rw [← kindAt_eq (hrun j t ht)]
        exact heof (first + j) (by omega) hj)).resolve_left hin
      obtain ⟨j, t, ht, rfl, hkind⟩ := hsemi
      rw [kindAt_eq (hrun j t ht), hkind]
  · intro st hst
    obtain ⟨a, -, ha, -, -, hsemi, heof⟩ := (standsIn_of_mem hst).1.extent
    rw [kindAt_eq ha]
    exact ⟨hsemi, heof⟩
  · intro st hst i hi
    obtain ⟨-, semi, hsemi, hkind⟩ := (standsIn_of_mem hst).1.terminator i hi
    obtain ⟨heq, hlt⟩ := terminator_eq_of_mem_split hreaches hst hi
    have hbefore := (standsIn_of_mem hst).2.1
    have hle := (standsIn_of_mem hst).1.first_le_last
    refine ⟨heq, by omega, ?_⟩
    rw [kindAt_eq hsemi, hkind]
  · exact fun st hst => terminator_isSome_of_mem_dropLast hreaches hst

/-- The tokens of a text with an empty statement, a header and an unclosed bracket. -/
theorem statementsIn_partition_mixed :
    let s := Source.ofText "a; ; for i := 0; i < 3; i++ \x7b\x7d; f(b;".toList
    17 ≤ s.tokens.length ∧ ∃ sts, s.statementsIn 1 17 = .ok sts ∧ s.Partition 1 17 sts := by
  intro s
  have hlength : 17 ≤ s.tokens.length := by decide +kernel
  exact ⟨hlength, statementsIn_partition s 1 17 hlength⟩

end Source

end Notebook
