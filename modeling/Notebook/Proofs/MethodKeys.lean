import Notebook.Proofs.DeclarationTokens
import Notebook.Proofs.FirstWrites

/-!
# The keys of methods

A method is kept under the name of its receiver's type and its own name.  The type is looked
for from the back of the receiver: it is the last name that no operator follows.  If the type
has parameters that is the last of them and not the type.  Names hold no point, so two keys
are equal if both of their parts are.

## Main statements

* `MethodHead.identify?_eq`: the kind and key of a method
* `Declaration.put_append`: where a declaration is put
* `MethodHead.keys_eq_iff`: which methods have the same key, and which are replaced
-/

namespace Notebook

open List

variable {ts : List Token} {st : Statement} {input : Text}

/-! ### Receivers -/

namespace Declaration

theorem receiverName?_append {us : List Token} {name : Text}
    (h : receiverName? us = some name) (ts : List Token) :
    receiverName? (ts ++ us) = some name := by
  induction ts with
  | nil => exact h
  | cons a ts ih =>
    cases hrest : ts ++ us with
    | nil =>
      rw [hrest] at ih
      cases ih
    | cons b more =>
      rw [hrest] at ih
      rw [cons_append, hrest, receiverName?, ih]

theorem receiverName?_of_no_ident (h : ∀ t ∈ ts, t.kind ≠ .ident) :
    receiverName? ts = none := by
  induction ts with
  | nil => rfl
  | cons a ts ih =>
    cases ts with
    | nil => rfl
    | cons b ts =>
      rw [receiverName?, ih fun t ht => h t (mem_cons_of_mem a ht)]
      exact if_neg fun hident => h a mem_cons_self hident.1

/-- The last name counts if no operator follows. -/
theorem receiverName?_last {a b : Token} (ha : a.kind = .ident) (hb : b.kind ≠ .op)
    (h : ∀ t ∈ b :: ts, t.kind ≠ .ident) : receiverName? (a :: b :: ts) = some a.lexeme := by
  rw [receiverName?, receiverName?_of_no_ident h]
  exact if_pos ⟨ha, hb⟩

/-- A declaration takes the place of the first version of it, and all others stay. -/
theorem put_append {front : List Declaration} {d : Declaration}
    (h : ∀ e ∈ front, e.sameIdentity d = false) (old : Declaration)
    (back : List Declaration) :
    put (front ++ old :: back) d =
      if old.sameIdentity d then front ++ d :: back else front ++ old :: put back d := by
  induction front with
  | nil => rfl
  | cons e front ih =>
    rw [cons_append, put, h e mem_cons_self, if_neg Bool.false_ne_true,
      ih fun e' he' => h e' (mem_cons_of_mem e he')]
    split <;> rfl

/-- A declaration that a statement makes, and that is taken out of the input for it. -/
def IsTakenFrom (d : Declaration) (input : Text) (st : Statement) : Prop :=
  ofStatement? (.ofText input) st = .ok (some d) ∧
    ∃ ds body, splitDeclarations input = .ok (ds, body) ∧ d ∈ ds

end Declaration

/-! ### How a method begins -/

/-- How a method declaration begins: `func (receiver *base[parameters]) name (`.  The
variable, the star and the parameters may be missing. -/
structure MethodHead where
  receiver : Option Text
  pointer : Bool
  base : Text
  parameters : List Text
  name : Text
deriving DecidableEq, Repr

namespace MethodHead

/-- Names with commas between them. -/
def listTokens (p : Text) (ps : List Text) : List (TokenKind × Text) :=
  (.ident, p) :: ps.flatMap fun q => [(.comma, [',']), (.ident, q)]

/-- The type parameters of a receiver, in brackets if there are any. -/
def parameterTokens : List Text → List (TokenKind × Text)
  | [] => []
  | p :: ps => (.opening .square, ['[']) :: (listTokens p ps ++ [(.closing .square, [']'])])

/-- The variable, the star and the type of a receiver. -/
def baseTokens (m : MethodHead) : List (TokenKind × Text) :=
  m.receiver.toList.map (fun r => (.ident, r)) ++
    ((if m.pointer then [(.op, ['*'])] else []) ++ [(.ident, m.base)])

/-- What stands between the parentheses of the receiver. -/
def receiverTokens (m : MethodHead) : List (TokenKind × Text) :=
  m.baseTokens ++ parameterTokens m.parameters

/-- The kinds and spellings of the tokens, up to the parenthesis that opens the parameters. -/
def tokens (m : MethodHead) : List (TokenKind × Text) :=
  (.keyword .funcKw, "func".toList) :: (.opening .paren, ['(']) ::
    (m.receiverTokens ++ [(.closing .paren, [')']), (.ident, m.name),
      (.opening .paren, ['('])])

/-- The name under which the method is kept: the last type parameter, or the type if there are
no parameters. -/
def owner (m : MethodHead) : Text :=
  m.parameters.getLast?.getD m.base

/-- A statement of an input that begins like this, whatever parameters, results and body
follow. -/
def Begins (m : MethodHead) (input : Text) (st : Statement) : Prop :=
  st ∈ (Source.ofText input).statements ∧
    m.tokens <+: ((Source.ofText input).tokens.drop st.first).map Token.content

instance (m : MethodHead) (input : Text) (st : Statement) : Decidable (m.Begins input st) :=
  inferInstanceAs (Decidable (_ ∧ _))

theorem getLast?_listTokens (p : Text) (ps : List Text) :
    (listTokens p ps).getLast? = (p :: ps).getLast?.map fun q => (.ident, q) := by
  rcases eq_nil_or_concat ps with rfl | ⟨qs, q, rfl⟩
  · rfl
  · simp [listTokens, getLast?_cons]

/-- The last name in a receiver is the owner, and at most a bracket stands behind it. -/
theorem exists_receiverTokens (m : MethodHead) :
    ∃ front back, m.receiverTokens = front ++ (.ident, m.owner) :: back ∧
      (back = [] ∨ back = [(.closing .square, [']'])]) := by
  cases hps : m.parameters with
  | nil =>
    refine ⟨m.receiver.toList.map (fun r => (.ident, r)) ++
      if m.pointer then [(.op, ['*'])] else [], [], ?_, .inl rfl⟩
    simp [receiverTokens, baseTokens, parameterTokens, owner, hps]
  | cons p ps =>
    have hlast : (listTokens p ps).getLast? = some (.ident, m.owner) := by
      rw [getLast?_listTokens, owner, hps, getLast?_cons]
      rfl
    obtain ⟨front, hfront⟩ := getLast?_eq_some_iff.1 hlast
    refine ⟨m.baseTokens ++ (.opening .square, ['[']) :: front, _, ?_, .inr rfl⟩
    rw [receiverTokens, hps, parameterTokens, hfront]
    simp

/-- Names, commas and operators leave the depth as it is. -/
theorem nest_plain {cs : List (TokenKind × Text)}
    (h : ∀ c ∈ cs, c.1 = .ident ∨ c.1 = .op ∨ c.1 = .comma) (depth : Nat) :
    nest depth (cs.map Prod.fst) = some depth := by
  refine nest_of_no_brackets (fun k hk => ?_) depth
  obtain ⟨c, hc, rfl⟩ := mem_map.1 hk
  rcases h c hc with hc | hc | hc <;>
  · rw [hc]
    decide

/-- Receivers are balanced. -/
theorem nest_receiverTokens (m : MethodHead) :
    nest 0 (m.receiverTokens.map Prod.fst) = some 0 := by
  have hbase : nest 0 (m.baseTokens.map Prod.fst) = some 0 := by
    refine nest_plain ?_ 0
    unfold baseTokens
    cases m.receiver <;> cases m.pointer <;> simp
  rw [receiverTokens, map_append, nest_append, hbase, Option.bind_some]
  cases m.parameters with
  | nil => rfl
  | cons p ps =>
    have hlist : nest 1 ((listTokens p ps).map Prod.fst) = some 1 := by
      refine nest_plain ?_ 1
      simp only [listTokens, mem_cons, mem_flatMap, not_mem_nil, or_false]
      rintro c (rfl | ⟨q, -, rfl | rfl⟩)
      · exact .inl rfl
      · exact .inr (.inr rfl)
      · exact .inl rfl
    have hopen : nestStep 0 (.opening .square) = some 1 := rfl
    rw [parameterTokens, map_cons, nest_cons, hopen, Option.bind_some, map_append,
      nest_append, hlist]
    rfl

/-! ### The key of a method -/

/-- The tokens of a method in its source. -/
theorem Begins.exists_tokens {m : MethodHead} (h : m.Begins input st) :
    ∃ f o rs c n p us, (Source.ofText input).tokens.drop st.first =
        f :: o :: (rs ++ c :: n :: p :: us) ∧
      f.kind = .keyword .funcKw ∧ o.kind = .opening .paren ∧
      rs.map Token.content = m.receiverTokens ∧ c.kind = .closing .paren ∧
      n.kind = .ident ∧ n.lexeme = m.name ∧ p.kind = .opening .paren := by
  obtain ⟨more, hmore⟩ := h.2
  obtain ⟨ts, us, htokens, hts, -⟩ := map_eq_append_iff.1 hmore.symm
  obtain ⟨f, ts, rfl, hf, hts⟩ := map_eq_cons_iff.1 hts
  obtain ⟨o, ts, rfl, ho, hts⟩ := map_eq_cons_iff.1 hts
  obtain ⟨rs, ts, rfl, hrs, hts⟩ := map_eq_append_iff.1 hts
  obtain ⟨c, ts, rfl, hc, hts⟩ := map_eq_cons_iff.1 hts
  obtain ⟨n, ts, rfl, hn, hts⟩ := map_eq_cons_iff.1 hts
  obtain ⟨p, ts, rfl, hp, hts⟩ := map_eq_cons_iff.1 hts
  obtain rfl := map_eq_nil_iff.1 hts
  refine ⟨f, o, rs, c, n, p, us, by rw [htokens]; simp, congrArg Prod.fst hf,
    congrArg Prod.fst ho, hrs, congrArg Prod.fst hc, congrArg Prod.fst hn,
    congrArg Prod.snd hn,
    congrArg Prod.fst hp⟩

/-- The receiver of a method names its owner. -/
theorem receiverName?_eq {m : MethodHead} {rs : List Token} {c : Token}
    (hrs : rs.map Token.content = m.receiverTokens) (hc : c.kind = .closing .paren) :
    Declaration.receiverName? (rs ++ [c]) = some m.owner ∧
      ∃ t ∈ rs, t.kind = .ident ∧ t.lexeme = m.owner := by
  obtain ⟨front, back, hsplit, hback⟩ := m.exists_receiverTokens
  rw [hsplit] at hrs
  obtain ⟨as, ts, rfl, -, hts⟩ := map_eq_append_iff.1 hrs
  obtain ⟨t, bs, rfl, ht, hbs⟩ := map_eq_cons_iff.1 hts
  have hkind : t.kind = .ident := congrArg Prod.fst ht
  have hname : t.lexeme = m.owner := congrArg Prod.snd ht
  refine ⟨?_, t, by simp, hkind, hname⟩
  rw [append_assoc, ← hname]
  refine Declaration.receiverName?_append ?_ as
  rcases hback with rfl | rfl
  · obtain rfl := map_eq_nil_iff.1 hbs
    refine Declaration.receiverName?_last hkind ?_ ?_ <;> simp [hc]
  · obtain ⟨b, bs, rfl, hb, hbs⟩ := map_eq_cons_iff.1 hbs
    obtain rfl := map_eq_nil_iff.1 hbs
    have hsquare : b.kind = .closing .square := congrArg Prod.fst hb
    refine Declaration.receiverName?_last hkind ?_ ?_ <;> simp [hc, hsquare]

/-- A method is kept under its owner and its name. -/
theorem Begins.identify?_eq {m : MethodHead} (h : m.Begins input st) (source : Text) :
    Declaration.identify? (.ofText input) st source =
      some (.function, m.owner ++ '.' :: m.name) := by
  obtain ⟨f, o, rs, c, n, p, us, htokens, hf, ho, hrs, hc, hn, hname, hp⟩ := h.exists_tokens
  let s := Source.ofText input
  have hat : ∀ i, s.tokens[st.first + i]? = (f :: o :: (rs ++ c :: n :: p :: us))[i]? := by
    intro i
    rw [← htokens, getElem?_drop]
  have hbehind : s.tokens.drop (st.first + 1) = o :: (rs ++ c :: n :: p :: us) := by
    rw [← drop_drop, htokens]
    rfl
  have hclose : s.matching (st.first + 1) = some (st.first + 2 + rs.length) := by
    have hnest : nest 0 (rs.map Token.kind) = some 0 := by
      have hkinds := congrArg (List.map Prod.fst) hrs
      rw [map_map] at hkinds
      exact hkinds ▸ m.nest_receiverTokens
    have hindex : Source.closingIndex 0 (o :: (rs ++ c :: n :: p :: us)) =
        some (rs.length + 1) := by
      rw [Source.closingIndex, ho]
      have hstep := Source.closingIndex_append hnest (c :: n :: p :: us)
      rw [Source.closingIndex, hc] at hstep
      simp only [TokenKind.closes, TokenKind.opens, Source.depthAfter] at hstep ⊢
      simpa using hstep
    rw [Source.matching, hbehind, hindex]
    simp only [Option.map_some, Option.some.injEq]
    omega
  have hreceiver : s.segment (st.first + 2) (st.first + 2 + rs.length) = rs ++ [c] := by
    have hlength : st.first + 2 + rs.length + 1 - (st.first + 2) = rs.length + 1 := by omega
    rw [Source.segment, ← drop_drop, htokens, hlength]
    simp [take_append]
  have hparen : s.kindAt (st.first + 1) = .opening .paren := by
    rw [Source.kindAt, hat]
    exact ho
  have hnamed : s.tokens[st.first + 2 + rs.length + 1]? = some n := by
    rw [show st.first + 2 + rs.length + 1 = st.first + (rs.length + 1 + 2) by omega, hat]
    simp
  have hopens : s.kindAt (st.first + 2 + rs.length + 2) = .opening .paren := by
    rw [Source.kindAt, show st.first + 2 + rs.length + 2 = st.first +
      (rs.length + 2 + 2) by omega, hat]
    simp [hp]
  have hnone :
      ((o :: (rs ++ c :: n :: p :: us)).head?.filter fun t => t.kind == .ident) = none := by
    simp [ho]
  rw [Declaration.identify?, htokens]
  simp only [hf, hnone]
  rw [if_pos hparen, hclose, Option.bind_eq_bind, Option.bind_some, hnamed,
    Option.bind_eq_bind, Option.bind_some, if_pos ⟨hn, hopens⟩, hreceiver,
    (receiverName?_eq hrs hc).1, hname]
  simp

/-- The parts of the key of a method hold no point. -/
theorem Begins.point_notMem {m : MethodHead} (h : m.Begins input st) :
    '.' ∉ m.owner ∧ '.' ∉ m.name := by
  obtain ⟨f, o, rs, c, n, p, us, htokens, -, -, hrs, hc, hn, hname, -⟩ := h.exists_tokens
  obtain ⟨-, t, ht, hkind, howner⟩ := receiverName?_eq hrs hc
  have hplain : ∀ u ∈ f :: o :: (rs ++ c :: n :: p :: us), u.kind = .ident →
      '.' ∉ u.lexeme := by
    intro u hu hident
    rw [← htokens] at hu
    exact (isIdentifier_of_mem_tokenize (mem_of_mem_drop hu) hident).point_notMem
  rw [← howner, ← hname]
  exact ⟨hplain t (by simp [ht]) hkind, hplain n (by simp) hn⟩

theorem Begins.exists_isTakenFrom {m : MethodHead} (h : m.Begins input st) :
    ∃ d : Declaration, d.IsTakenFrom input st ∧ d.kind = .function ∧
      d.key = m.owner ++ '.' :: m.name := by
  let s := Source.ofText input
  have hdeclared :
      s.declared? st = some ⟨.function, m.owner ++ '.' :: m.name, s.textAt st⟩ := by
    rw [Source.declared?, h.identify?_eq]
    rfl
  obtain ⟨body, -, hsplit⟩ := splitDeclarations_eq input
  refine ⟨_, ⟨?_, _, body, hsplit, mem_filterMap.2 ⟨st, h.1, hdeclared⟩⟩, rfl, rfl⟩
  rw [Declaration.ofStatement?_eq (Source.standsIn_of_mem h.1).1, Source.statementText_eq h.1]
  exact congrArg Except.ok hdeclared

/-- **Methods are told apart by owner and name.**  Two statements that begin with a
`MethodHead` give declarations of the same `key` exactly if the names and the owners agree,
where `MethodHead.owner` is the last type parameter of the receiver, or its type if it has no
parameters.  `Declaration.merge` puts a method in the place of the one with the same key, and
all others stay. -/
theorem keys_eq_iff {m₁ m₂ : MethodHead} {input₁ input₂ : Text} {st₁ st₂ : Statement}
    (h₁ : m₁.Begins input₁ st₁) (h₂ : m₂.Begins input₂ st₂) :
    ∃ d₁ d₂ : Declaration, d₁.IsTakenFrom input₁ st₁ ∧ d₂.IsTakenFrom input₂ st₂ ∧
      (d₁.key = d₂.key ↔ m₁.owner = m₂.owner ∧ m₁.name = m₂.name) ∧
      (m₁.parameters = [] → m₂.parameters = [] →
        (d₁.key = d₂.key ↔ m₁.base = m₂.base ∧ m₁.name = m₂.name)) ∧
      ∀ front back, (∀ e ∈ front, e.sameIdentity d₂ = false) →
        Declaration.merge (front ++ d₁ :: back) [d₂] =
          if m₁.owner = m₂.owner ∧ m₁.name = m₂.name then front ++ d₂ :: back
          else front ++ d₁ :: Declaration.merge back [d₂] := by
  obtain ⟨d₁, hd₁, hkind₁, hkey₁⟩ := h₁.exists_isTakenFrom
  obtain ⟨d₂, hd₂, hkind₂, hkey₂⟩ := h₂.exists_isTakenFrom
  have hkeys : d₁.key = d₂.key ↔ m₁.owner = m₂.owner ∧ m₁.name = m₂.name := by
    rw [hkey₁, hkey₂, append_cons_inj_of_notMem h₁.point_notMem.1 h₁.point_notMem.2]
    simp
  refine ⟨d₁, d₂, hd₁, hd₂, hkeys, ?_, ?_⟩
  · intro hnil₁ hnil₂
    rw [hkeys, owner, owner, hnil₁, hnil₂]
    rfl
  · intro front back hfront
    have hsame : d₁.sameIdentity d₂ = true ↔ m₁.owner = m₂.owner ∧ m₁.name = m₂.name := by
      simp [Declaration.sameIdentity, hkind₁, hkind₂, ← hkeys]
    rw [Declaration.merge_cons, Declaration.merge_nil, Declaration.put_append hfront]
    simp only [hsame]
    rfl

/-- A method that is declared again with another receiver variable and other parameters. -/
theorem keys_eq_iff_again :
    ∃ d₁ d₂ : Declaration,
      d₁.IsTakenFrom "func (a *A) M() \x7b\x7d" ⟨0, 10, ⟨0, 18⟩, some 11⟩ ∧
      d₂.IsTakenFrom "func (A) M(n int) \x7b\x7d" ⟨0, 10, ⟨0, 20⟩, some 11⟩ ∧
      d₁.key = d₂.key ∧ Declaration.merge [d₁] [d₂] = [d₂] := by
  have hbegins : MethodHead.Begins ⟨some "a", true, "A", [], "M"⟩ "func (a *A) M() \x7b\x7d"
        ⟨0, 10, ⟨0, 18⟩, some 11⟩ ∧
      MethodHead.Begins ⟨none, false, "A", [], "M"⟩ "func (A) M(n int) \x7b\x7d"
        ⟨0, 10, ⟨0, 20⟩, some 11⟩ := by
    decide +kernel
  obtain ⟨d₁, d₂, hd₁, hd₂, hkeys, -, hmerge⟩ := keys_eq_iff hbegins.1 hbegins.2
  exact ⟨d₁, d₂, hd₁, hd₂, hkeys.2 ⟨rfl, rfl⟩, hmerge [] [] (by simp)⟩

/-- Methods of one name of two types whose parameters have one name. -/
def genericMethods : Text :=
  "func (s *A[T]) M() \x7b\x7d\nfunc (s *B[T]) M() \x7b\x7d"

/-- The methods have one key, though they belong to different types. -/
theorem not_keys_by_type :
    ¬ ∀ (m₁ m₂ : MethodHead) (input₁ input₂ : Text) (st₁ st₂ : Statement)
      (d₁ d₂ : Declaration),
      m₁.Begins input₁ st₁ → m₂.Begins input₂ st₂ → d₁.IsTakenFrom input₁ st₁ →
      d₂.IsTakenFrom input₂ st₂ →
      (d₁.key = d₂.key ↔ m₁.base = m₂.base ∧ m₁.name = m₂.name) := by
  intro h
  have hbegins : MethodHead.Begins ⟨some "s", true, "A", ["T"], "M"⟩ genericMethods
        ⟨0, 13, ⟨0, 21⟩, some 14⟩ ∧
      MethodHead.Begins ⟨some "s", true, "B", ["T"], "M"⟩ genericMethods
        ⟨15, 28, ⟨22, 43⟩, some 29⟩ := by
    decide +kernel
  obtain ⟨d₁, hd₁, -, hkey₁⟩ := hbegins.1.exists_isTakenFrom
  obtain ⟨d₂, hd₂, -, hkey₂⟩ := hbegins.2.exists_isTakenFrom
  have hbase :=
    ((h _ _ _ _ _ _ d₁ d₂ hbegins.1 hbegins.2 hd₁ hd₂).1 (hkey₁.trans hkey₂.symm)).1
  exact absurd hbase (by decide)

end MethodHead

end Notebook
