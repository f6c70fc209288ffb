import Notebook.Proofs.BindingTokens

/-!
# The tokens of package-level declarations

Whether a statement is taken out of an input, and under which key, is decided by its own
tokens: the word it begins with, a name behind that, or a receiver and a name behind it.  What
stands behind the statement has no part in it, even if brackets of the statement are not
closed.
-/

namespace Notebook

open Lexer List

variable {rest ts us : List Token} {s : Source} {semi : Token}

namespace Source

/-- Whether tokens begin with a receiver and the name of a method: `( … ) name (`. -/
def startsMethod (ts : List Token) : Bool :=
  (ts[0]?.any fun t => t.kind == .opening .paren) &&
    (closingIndex 0 ts).any fun n =>
      (ts[n + 1]?.any fun t => t.kind == .ident) &&
        ts[n + 2]?.any fun t => t.kind == .opening .paren

/-- Whether tokens begin a package-level declaration: an import, a type, or a function with a
name of its own, possibly behind a receiver. -/
def startsDeclaration : List Token → Bool
  | [] => false
  | t :: ts =>
    match t.kind with
    | .keyword .importKw | .keyword .typeKw => true
    | .keyword .funcKw => (ts[0]?.any fun t => t.kind == .ident) || startsMethod ts
    | _ => false

theorem any_drop_iff {i n : Nat} {k : TokenKind} (hk : k ≠ .eof) :
    ((s.tokens.drop i)[n]?.any fun t => t.kind == k) = true ↔ s.kindAt (n + i) = k := by
  rw [getElem?_drop, Nat.add_comm, kindAt]
  cases s.tokens[n + i]? with
  | none => simpa using hk.symm
  | some t => simp

theorem startsMethod_drop (s : Source) (i : Nat) :
    startsMethod (s.tokens.drop i) = true ↔ s.kindAt i = .opening .paren ∧
      ∃ close, s.matching i = some close ∧ s.kindAt (close + 1) = .ident ∧
        s.kindAt (close + 2) = .opening .paren := by
  rw [startsMethod, Bool.and_eq_true, any_drop_iff (by decide), Nat.zero_add,
    Option.any_eq_true]
  refine and_congr_right fun _ => ?_
  simp only [matching, Option.map_eq_some_iff, Bool.and_eq_true]
  constructor
  · rintro ⟨n, hn, hname, hbehind⟩
    rw [any_drop_iff (by decide), Nat.add_right_comm] at hname hbehind
    exact ⟨n + i, ⟨n, hn, rfl⟩, hname, hbehind⟩
  · rintro ⟨-, ⟨n, hn, rfl⟩, hname, hbehind⟩
    refine ⟨n, hn, ?_, ?_⟩
    · rwa [any_drop_iff (by decide), Nat.add_right_comm]
    · rwa [any_drop_iff (by decide), Nat.add_right_comm]

theorem isPackageLevel_eq (s : Source) (st : Statement) :
    s.isPackageLevel st = startsDeclaration (s.tokens.drop st.first) := by
  unfold isPackageLevel Declaration.identify?
  cases hdrop : s.tokens.drop st.first with
  | nil => rfl
  | cons t ts =>
    have hts : ts = s.tokens.drop (st.first + 1) := by
      rw [← drop_drop, hdrop]
      rfl
    by_cases hfunc : t.kind = .keyword .funcKw
    · simp only [hfunc, startsDeclaration]
      cases hhead : ts[0]?.any fun t => t.kind == .ident with
      | true =>
        obtain ⟨u, hu, hident⟩ := (Option.any_eq_true ..).1 hhead
        rw [head?_eq_getElem?, hu, Option.filter_some, if_pos hident]
        rfl
      | false =>
        have hnone : (ts.head?.filter fun n => n.kind == .ident) = none := by
          rw [head?_eq_getElem?, Option.filter_eq_none_iff]
          intro u hu hident
          rw [hu, Option.any_some, hident] at hhead
          cases hhead
        rw [hnone, Bool.false_or, hts, Bool.eq_iff_iff, startsMethod_drop]
        by_cases hparen : s.kindAt (st.first + 1) = .opening .paren
        · rw [if_pos hparen, Option.isSome_iff_exists]
          constructor
          · rintro ⟨key, hkey⟩
            obtain ⟨close, hclose, hkey⟩ := Option.bind_eq_some_iff.1 hkey
            obtain ⟨name, hname, hkey⟩ := Option.bind_eq_some_iff.1 hkey
            obtain ⟨hident, hbehind⟩ := Option.isSome_ite.1 (Option.isSome_of_eq_some hkey)
            exact ⟨hparen, close, hclose, by rw [kindAt, hname]; exact hident, hbehind⟩
          · rintro ⟨-, close, hclose, hident, hbehind⟩
            cases hname : s.tokens[close + 1]? with
            | none =>
              rw [kindAt, hname] at hident
              cases hident
            | some name =>
              rw [kindAt, hname] at hident
              exact ⟨_, Option.bind_eq_some_iff.2 ⟨close, hclose,
                Option.bind_eq_some_iff.2 ⟨name, hname, if_pos ⟨hident, hbehind⟩⟩⟩⟩
        · simp [hparen]
    · obtain ⟨kind, lexeme, start⟩ := t
      cases kind with
      | keyword kw => cases kw <;> first | rfl | exact absurd rfl hfunc
      | _ => rfl

/-- A semicolon behind tokens is found like the end of them. -/
theorem any_getElem?_append {p : Token → Bool} (hsemi : p semi = false) {n : Nat}
    (hn : n ≤ ts.length) : (ts ++ semi :: rest)[n]?.any p = ts[n]?.any p := by
  rcases Nat.lt_or_eq_of_le hn with hlt | rfl
  · rw [getElem?_append_left hlt]
  · simp [hsemi]

/-! ### What decides -/

theorem closingIndex_congr (h : ts.map Token.kind = us.map Token.kind) (depth : Nat) :
    closingIndex depth ts = closingIndex depth us := by
  induction ts generalizing us depth with
  | nil =>
    rw [map_nil, eq_comm, map_eq_nil_iff] at h
    rw [h]
  | cons t ts ih =>
    obtain ⟨u, us, rfl, hu, hus⟩ := map_eq_cons_iff.1 h.symm
    rw [closingIndex, closingIndex, hu, ih hus.symm]

/-- Where nothing closes, no closing bracket is found. -/
theorem closingIndex_append_of_no_closing (h : ∀ u ∈ us, u.kind.closes = false) (depth : Nat)
    (ts : List Token) : closingIndex depth (ts ++ us) = closingIndex depth ts := by
  have hnone : ∀ depth, closingIndex depth us = none := by
    induction us with
    | nil => exact fun _ => rfl
    | cons u us ih =>
      intro depth
      rw [closingIndex, h u mem_cons_self, Bool.false_and,
        if_neg Bool.false_ne_true, ih fun v hv => h v (mem_cons_of_mem u hv)]
      rfl
  induction ts generalizing depth with
  | nil => exact hnone depth
  | cons t ts ih => rw [cons_append, closingIndex, closingIndex, ih]

/-- A declaration is told by the kinds of its tokens alone. -/
theorem startsDeclaration_congr (h : ts.map Token.kind = us.map Token.kind) :
    startsDeclaration ts = startsDeclaration us := by
  have hany : ∀ {ts us : List Token}, ts.map Token.kind = us.map Token.kind →
      ∀ (n : Nat) (p : TokenKind → Bool),
        (ts[n]?.any fun t => p t.kind) = us[n]?.any fun t => p t.kind := by
    intro ts us h n p
    have hget := congrArg (fun ks => ks[n]?.any p) h
    simpa [getElem?_map, Option.any_map, Function.comp_def] using hget
  cases ts with
  | nil =>
    rw [map_nil, eq_comm, map_eq_nil_iff] at h
    rw [h]
  | cons t ts =>
    obtain ⟨u, us, rfl, hu, hus⟩ := map_eq_cons_iff.1 h.symm
    have htail := hany hus.symm
    rw [startsDeclaration, startsDeclaration, hu, startsMethod, startsMethod,
      closingIndex_congr hus.symm]
    simp only [htail _ (· == .ident), htail _ (· == .opening .paren)]

theorem startsMethod_append (hdepth : (ts.map Token.kind).foldl depthAfter 0 = 0)
    (hsemi : semi.kind = .semi) : startsMethod (ts ++ semi :: rest) = startsMethod ts := by
  have hident : (semi.kind == .ident) = false := by
    rw [hsemi]
    rfl
  have hparen : (semi.kind == .opening .paren) = false := by
    rw [hsemi]
    rfl
  unfold startsMethod
  rw [any_getElem?_append hparen (Nat.zero_le _)]
  cases ts with
  | nil => rfl
  | cons u us =>
    by_cases hu : u.kind = .opening .paren
    · obtain ⟨n, -, hn⟩ := exists_closingIndex_cons hu hdepth
      have hlt := closingIndex_lt hn
      rw [closingIndex_append_left hn, hn]
      simp only [Option.any_some]
      rw [any_getElem?_append hident hlt]
      by_cases hlast : n + 1 + 1 < (u :: us).length
      · rw [any_getElem?_append hparen hlast]
      · rw [getElem?_eq_none (Nat.not_lt.1 hlast)]
        simp
    · have hfalse : (u.kind == .opening .paren) = false := beq_false_of_ne hu
      simp only [getElem?_cons_zero, Option.any_some, hfalse, Bool.false_and]

/-- What stands behind a complete statement has no part in it. -/
theorem startsDeclaration_append (hdepth : (ts.map Token.kind).foldl depthAfter 0 = 0)
    (hne : ts ≠ []) (hsemi : semi.kind = .semi) :
    startsDeclaration (ts ++ semi :: rest) = startsDeclaration ts := by
  obtain ⟨⟨kind, lexeme, start⟩, ts, rfl⟩ := exists_cons_of_ne_nil hne
  by_cases hfunc : kind = .keyword .funcKw
  · subst hfunc
    have htail : (ts.map Token.kind).foldl depthAfter 0 = 0 := hdepth
    have hident : (semi.kind == .ident) = false := by
      rw [hsemi]
      rfl
    show ((ts ++ semi :: rest)[0]?.any _ || startsMethod (ts ++ semi :: rest)) =
      (ts[0]?.any _ || startsMethod ts)
    rw [startsMethod_append htail hsemi, any_getElem?_append hident (Nat.zero_le _)]
  · cases kind with
    | keyword kw => cases kw <;> first | rfl | exact absurd rfl hfunc
    | _ => rfl

/-- Semicolons and the end have no part in a statement, complete or not. -/
theorem startsDeclaration_append_ends (hne : ts ≠ [])
    (hus : ∀ u ∈ us, u.kind = .semi ∨ u.kind = .eof) :
    startsDeclaration (ts ++ us) = startsDeclaration ts := by
  have hkinds : ∀ u ∈ us, u.kind.closes = false ∧ (u.kind == .ident) = false ∧
      (u.kind == .opening .paren) = false := by
    intro u hu
    rcases hus u hu with h | h <;>
    · rw [h]
      decide
  obtain ⟨t, ts, rfl⟩ := exists_cons_of_ne_nil hne
  have hany : ∀ (n : Nat) (k : TokenKind), (∀ u ∈ us, (u.kind == k) = false) →
      ((ts ++ us)[n]?.any fun u => u.kind == k) = ts[n]?.any fun u => u.kind == k := by
    intro n k hk
    by_cases hn : n < ts.length
    · rw [getElem?_append_left hn]
    · rw [getElem?_append_right (Nat.not_lt.1 hn),
        getElem?_eq_none (Nat.not_lt.1 hn)]
      cases hget : us[n - ts.length]? with
      | none => rfl
      | some u => exact hk u (mem_of_getElem? hget)
  have hident := fun n => hany n .ident fun u hu => (hkinds u hu).2.1
  have hparen := fun n => hany n (.opening .paren) fun u hu => (hkinds u hu).2.2
  rw [cons_append, startsDeclaration, startsDeclaration, startsMethod, startsMethod,
    closingIndex_append_of_no_closing (fun u hu => (hkinds u hu).1)]
  simp only [hident, hparen]

end Source

/-- Whether pieces are those of a package-level declaration. -/
def declares (body : List Piece) : Bool :=
  Source.startsDeclaration (scan .start false body)

/-- A statement is a package-level declaration if its pieces are. -/
theorem Statement.Spells.isPackageLevel_eq {st : Statement} {body : List Piece}
    (h : st.Spells s body) : s.isPackageLevel st = declares body := by
  obtain ⟨here, semi, rest, htokens, hsemi, -⟩ := h.tokens
  have hdepth : ((scan here false body).map Token.kind).foldl Source.depthAfter 0 = 0 := by
    rw [map_kind_scan]
    exact foldl_depthAfter_of_nest (Mode.nest_of_walk h.isStatement.whole)
  have hne : scan here false body ≠ [] := by
    obtain ⟨a, ts, -, hscan, -⟩ := h.isStatement.scan_eq here
    rw [hscan]
    exact cons_ne_nil _ _
  rw [Source.isPackageLevel_eq, htokens, Source.startsDeclaration_append hdepth hne hsemi]
  exact Source.startsDeclaration_congr (by rw [map_kind_scan, map_kind_scan])

end Notebook
