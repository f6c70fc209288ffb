import Notebook.Proofs.ReplayCaptures

/-!
# Clauses that bind names

A statement binds names in one clause or, if it is a group, in several: the tokens behind
`var` or `const`, each specification between the parentheses of a group, or the whole
assignment.  Where a clause is cut, at its assigning token and at the commas of its values, no
bracket is open.  So the values are balanced, and nothing outside their brackets ends a
statement, provided that no `else` stands there: behind an `else` a semicolon is taken for a
part of a header.
-/

namespace Notebook

open List

variable {b : Binding} {define : Bool} {front left names p right taken ts values : List Token}
  {m : Mode} {d depth e : Nat} {v : Span} {st : Statement} {op t : Token}

namespace Source

/-! ### Tokens outside brackets -/

/-- The depth behind a token, counted down in front of it and up behind it. -/
theorem depth_of_nestStep {k : TokenKind} (h : nestStep depth k = some d) :
    (if k.opens then (if k.closes then depth - 1 else depth) + 1
      else if k.closes then depth - 1 else depth) = d := by
  rw [← depthAfter_of_nestStep h]
  cases k <;> rfl

theorem topLevel_cons (h : nestStep depth t.kind = some d) (ts : List Token) :
    topLevel depth (t :: ts) = topLevel depth [t] ++ topLevel d ts := by
  rw [topLevel, topLevel, depth_of_nestStep h]
  by_cases hzero : (if t.kind.closes = true then depth - 1 else depth) = 0
  · rw [if_pos hzero, if_pos hzero]
    rfl
  · rw [if_neg hzero, if_neg hzero]
    rfl

/-- Behind tokens that are nested the tokens outside brackets are found at the depth they lead
to. -/
theorem topLevel_append (h : nest depth (ts.map Token.kind) = some d) (us : List Token) :
    topLevel depth (ts ++ us) = topLevel depth ts ++ topLevel d us := by
  induction ts generalizing depth with
  | nil =>
    cases h
    rfl
  | cons t ts ih =>
    rw [map_cons, nest_cons] at h
    obtain ⟨e, he, hts⟩ := Option.bind_eq_some_iff.1 h
    rw [cons_append, topLevel_cons he (ts ++ us), topLevel_cons he ts, ih hts,
      append_assoc]

theorem mem_of_mem_topLevel (h : t ∈ topLevel depth ts) : t ∈ ts := by
  induction ts generalizing depth with
  | nil => cases h
  | cons u ts ih =>
    rw [topLevel] at h
    by_cases hzero : (if u.kind.closes = true then depth - 1 else depth) = 0
    · rw [if_pos hzero] at h
      rcases mem_cons.1 h with rfl | h
      · exact mem_cons_self
      · exact mem_cons_of_mem u (ih h)
    · rw [if_neg hzero] at h
      exact mem_cons_of_mem u (ih h)

theorem eq_of_mem_topLevel_singleton {u : Token} (h : u ∈ topLevel depth [t]) : u = t :=
  mem_singleton.1 (mem_of_mem_topLevel h)

/-- A token that is no closing bracket is outside brackets at depth zero. -/
theorem mem_topLevel_singleton (h : t.kind.closes = false) :
    t ∈ topLevel depth [t] ↔ depth = 0 := by
  rw [topLevel]
  simp only [h, Bool.false_eq_true, if_false]
  split <;> simp_all [topLevel]

/-! ### Parts and clauses -/

/-- Tokens of a list, in front of which and behind which no bracket is open. -/
def PartOf (p ts : List Token) : Prop :=
  ∃ xs ys, ts = xs ++ p ++ ys ∧ nest 0 (xs.map Token.kind) = some 0 ∧
    nest 0 (p.map Token.kind) = some 0

/-- Balanced tokens that nothing splits: no semicolon stands outside their brackets, and no
`else` that would make a header of what follows. -/
structure IsClause (ts : List Token) : Prop where
  balanced : nest 0 (ts.map Token.kind) = some 0
  plain : ∀ t ∈ topLevel 0 ts, t.kind ≠ .semi ∧ t.kind ≠ .keyword .elseKw

theorem PartOf.trans {q : List Token} (hpq : PartOf p q) (hq : PartOf q ts) :
    PartOf p ts := by
  obtain ⟨xs, ys, rfl, hxs, hp⟩ := hpq
  obtain ⟨front, back, rfl, hfront, -⟩ := hq
  refine ⟨front ++ xs, ys ++ back, by simp only [append_assoc], ?_, hp⟩
  rw [map_append, nest_append, hfront]
  exact hxs

theorem PartOf.nest {p ts : List Token} (h : PartOf p ts) :
    nest 0 (p.map Token.kind) = some 0 := by
  obtain ⟨-, -, -, -, hp⟩ := h
  exact hp

theorem PartOf.exists_eq (h : PartOf p ts) : ∃ xs ys, ts = xs ++ p ++ ys := by
  obtain ⟨xs, ys, hts, -⟩ := h
  exact ⟨xs, ys, hts⟩

/-- A part of a clause is a clause. -/
theorem IsClause.part (h : IsClause ts) (hp : PartOf p ts) : IsClause p := by
  obtain ⟨xs, ys, rfl, hxs, hp⟩ := hp
  refine ⟨hp, fun t ht => h.plain t ?_⟩
  rw [append_assoc, topLevel_append hxs, topLevel_append hp]
  exact mem_append_right _ (mem_append_left _ ht)

/-! ### Cutting at commas and at assigning tokens -/

/-- The parts between the commas outside brackets: the first one ends where no bracket is
open, and the others begin there too. -/
theorem cutCommas_spec (h : nest depth (ts.map Token.kind) = some 0) :
    ∃ p ps, cutCommas depth ts = p :: ps ∧
      (∃ ys, ts = p ++ ys ∧ nest depth (p.map Token.kind) = some 0 ∧
        ∀ t ∈ topLevel depth p, t.kind ≠ .comma) ∧
      ∀ q ∈ ps, (∃ xs ys, ts = xs ++ q ++ ys ∧ nest depth (xs.map Token.kind) = some 0) ∧
        nest 0 (q.map Token.kind) = some 0 ∧ ∀ t ∈ topLevel 0 q, t.kind ≠ .comma := by
  induction ts generalizing depth with
  | nil => exact ⟨[], [], rfl, ⟨[], rfl, h, by simp [topLevel]⟩, by simp⟩
  | cons t ts ih =>
    rw [map_cons, nest_cons] at h
    obtain ⟨d, hd, hts⟩ := Option.bind_eq_some_iff.1 h
    have hstep : ∀ xs : List Token, nest depth ((t :: xs).map Token.kind) =
        nest d (xs.map Token.kind) := by
      intro xs
      rw [map_cons, nest_cons, hd]
      rfl
    obtain ⟨p, ps, hcut, ⟨ys, hfirst, hnest, hplain⟩, hothers⟩ := ih hts
    by_cases hcomma : t.kind = .comma ∧ depth = 0
    · -- The comma ends an empty part, and what follows begins at depth zero.
      obtain ⟨hkind, rfl⟩ := hcomma
      obtain rfl : d = 0 := by
        rw [hkind] at hd
        exact (Option.some.inj hd).symm
      refine ⟨[], p :: ps, by rw [cutCommas, if_pos ⟨hkind, rfl⟩, hcut], ?_, ?_⟩
      · exact ⟨t :: ts, rfl, rfl, by simp [topLevel]⟩
      · intro q hq
        rcases mem_cons.1 hq with rfl | hq
        · exact ⟨⟨[t], ys, by rw [hfirst]; rfl, hstep []⟩, hnest, hplain⟩
        · obtain ⟨⟨xs, zs, heq, hxs⟩, hrest⟩ := hothers q hq
          exact ⟨⟨t :: xs, zs, by rw [heq]; rfl, (hstep xs).trans hxs⟩, hrest⟩
    · refine ⟨t :: p, ps, ?_, ⟨ys, by rw [hfirst]; rfl, (hstep p).trans hnest, ?_⟩, ?_⟩
      · rw [cutCommas, if_neg hcomma, depthAfter_of_nestStep hd, hcut]
      · intro u hu
        rw [topLevel_cons hd] at hu
        rcases mem_append.1 hu with hu | hu
        · intro hkind
          obtain rfl := eq_of_mem_topLevel_singleton hu
          refine hcomma ⟨hkind, (mem_topLevel_singleton ?_).1 hu⟩
          rw [hkind]
          rfl
        · exact hplain u hu
      · intro q hq
        obtain ⟨⟨xs, zs, heq, hxs⟩, hrest⟩ := hothers q hq
        exact ⟨⟨t :: xs, zs, by rw [heq]; rfl, (hstep xs).trans hxs⟩, hrest⟩

/-- What stands between commas outside brackets is a part, and holds no such comma. -/
theorem partOf_of_mem_commaParts (h : nest 0 (ts.map Token.kind) = some 0)
    (hp : p ∈ commaParts ts) :
    PartOf p ts ∧ p ≠ [] ∧ ∀ t ∈ topLevel 0 p, t.kind ≠ .comma := by
  obtain ⟨hmem, hne⟩ := mem_filter.1 hp
  obtain ⟨q, qs, hcut, ⟨ys, hfirst, hnest, hplain⟩, hothers⟩ := cutCommas_spec h
  rw [hcut] at hmem
  rcases mem_cons.1 hmem with rfl | hmem
  · exact ⟨⟨[], ys, hfirst, rfl, hnest⟩, by simpa using hne, hplain⟩
  · obtain ⟨⟨xs, zs, heq, hxs⟩, hnest, hplain⟩ := hothers p hmem
    exact ⟨⟨xs, zs, heq, hxs, hnest⟩, by simpa using hne, hplain⟩

/-- What stands behind a token outside brackets is a part. -/
theorem partOf_of_append (h : nest 0 ((left ++ op :: right).map Token.kind) = some 0)
    (hleft : nest 0 ((left ++ [op]).map Token.kind) = some 0) :
    PartOf right (left ++ op :: right) := by
  refine ⟨left ++ [op], [], by simp, hleft, ?_⟩
  have hsplit : left ++ op :: right = (left ++ [op]) ++ right := by simp
  rw [hsplit, map_append, nest_append, hleft] at h
  exact h

theorem behindAssign_eq (h : nest depth (ts.map Token.kind) = some 0) :
    behindAssign depth ts = [] ∨ ∃ left op, ts = left ++ op :: behindAssign depth ts ∧
      nest depth ((left ++ [op]).map Token.kind) = some 0 := by
  induction ts generalizing depth with
  | nil => exact .inl rfl
  | cons t ts ih =>
    rw [map_cons, nest_cons] at h
    obtain ⟨d, hd, hts⟩ := Option.bind_eq_some_iff.1 h
    rw [behindAssign]
    split
    next hassign =>
      obtain ⟨hkind, rfl⟩ := hassign
      refine .inr ⟨[], t, rfl, ?_⟩
      rw [nil_append, map_singleton, hkind]
      rfl
    · rw [depthAfter_of_nestStep hd]
      rcases ih hts with hnil | ⟨left, op, heq, hleft⟩
      · exact .inl hnil
      · refine .inr ⟨t :: left, op, congrArg (t :: ·) heq, ?_⟩
        rw [cons_append, map_cons, nest_cons, hd]
        exact hleft

theorem partOf_behindAssign (h : nest 0 (ts.map Token.kind) = some 0) :
    PartOf (behindAssign 0 ts) ts := by
  rcases behindAssign_eq h with hnil | ⟨left, op, heq, hleft⟩
  · rw [hnil]
    exact ⟨[], ts, rfl, rfl, rfl⟩
  · rw [heq] at h
    have hpart := partOf_of_append h hleft
    rwa [← heq] at hpart

theorem nest_of_cutAssignment (h : nest depth (ts.map Token.kind) = some 0)
    (hcut : cutAssignment depth ts = some (left, op, right)) :
    nest depth ((left ++ [op]).map Token.kind) = some 0 := by
  induction ts generalizing depth left with
  | nil => cases hcut
  | cons t ts ih =>
    rw [map_cons, nest_cons] at h
    obtain ⟨d, hd, hts⟩ := Option.bind_eq_some_iff.1 h
    rw [cutAssignment, depth_of_nestStep hd] at hcut
    by_cases hassign : (if t.kind.closes = true then depth - 1 else depth) = 0 ∧
        assigns t.kind = true
    · rw [if_pos hassign] at hcut
      cases hcut
      obtain ⟨hzero, hassigns⟩ := hassign
      -- No assigning token is a bracket.
      have hbracket : op.kind.opens = false ∧ op.kind.closes = false := by
        generalize op.kind = kind at hassigns
        cases kind <;> first | exact ⟨rfl, rfl⟩ | cases hassigns
      rw [hbracket.2, if_neg Bool.false_ne_true] at hzero
      rw [hzero, nil_append]
      exact nest_of_no_brackets (by simpa using hbracket) 0
    · rw [if_neg hassign] at hcut
      obtain ⟨⟨left', op', right'⟩, hrest, heq⟩ := Option.map_eq_some_iff.1 hcut
      cases heq
      rw [cons_append, map_cons, nest_cons, hd]
      exact ih hts hrest

theorem partOf_of_cutAssignment (h : nest 0 (ts.map Token.kind) = some 0)
    (hcut : cutAssignment 0 ts = some (left, op, right)) : PartOf right ts := by
  have heq := eq_of_cutAssignment hcut
  have hleft := nest_of_cutAssignment h hcut
  rw [heq] at h ⊢
  exact partOf_of_append h hleft

/-! ### Values -/

/-- A value of its own is what stands between two commas. -/
theorem exists_of_pairValues (hb : b ∈ pairValues names values define)
    (hv : b.value = some v) : ∃ p ∈ commaParts values, extent p = some v := by
  unfold pairValues at hb
  dsimp only at hb
  split at hb
  · rw [← map_uncurry_zip_eq_zipWith] at hb
    obtain ⟨⟨n, p⟩, hp, rfl⟩ := mem_map.1 hb
    exact ⟨p, (of_mem_zip hp).2, hv⟩
  · obtain ⟨n, -, rfl⟩ := mem_map.1 hb
    cases hv

/-- Tokens that are the value of a name: a clause without commas. -/
structure IsValue (p : List Token) : Prop extends IsClause p where
  ne_nil : p ≠ []
  single : ∀ t ∈ topLevel 0 p, t.kind ≠ .comma

theorem exists_value_of_pairValues (hts : IsClause ts) (hvalues : PartOf values ts)
    (hb : b ∈ pairValues names values define) (hv : b.value = some v) :
    ∃ p, PartOf p ts ∧ IsValue p ∧ extent p = some v := by
  obtain ⟨p, hp, hextent⟩ := exists_of_pairValues hb hv
  obtain ⟨hpart, hne, hsingle⟩ := partOf_of_mem_commaParts hvalues.nest hp
  have hpts := hpart.trans hvalues
  exact ⟨p, hpts, ⟨hts.part hpts, hne, hsingle⟩, hextent⟩

/-! ### Splitting and clauses -/

/-- A step that begins no header: none is read behind it, and outside brackets it takes in no
semicolon. -/
theorem plain_of_step {n : Mode} (h : m.step t.kind = some n) (hheader : m.header = false)
    (hfront : SplitState.opensHeader t.kind = false ∨ m.inside = true)
    (helse : ∀ u ∈ topLevel m.depth [t], u.kind ≠ .keyword .elseKw) :
    n = ⟨n.depth, false, true⟩ ∧ ∀ u ∈ topLevel m.depth [t], u.kind ≠ .semi := by
  obtain ⟨-, hends, -, hafter, hinside⟩ := Mode.step_eq_some h
  have houtside : t.kind.closes = false → m.depth = 0 → t ∈ topLevel m.depth [t] :=
    fun hcloses => (mem_topLevel_singleton hcloses).2
  constructor
  · have hnone : n.header = false := by
      rw [hafter, Mode.headerAfter]
      split
      · rfl
      · rw [if_neg (by rcases hfront with hfront | hfront <;> simp [hfront])]
        split
        next helseHere =>
          obtain ⟨hkind, hzero⟩ := Bool.and_eq_true_iff.1 helseHere
          have hkind := eq_of_beq hkind
          exact absurd hkind (helse t (houtside (by rw [hkind]; rfl) (eq_of_beq hzero)))
        · exact hheader
    rw [← hnone, ← hinside]
  · intro u hu hkind
    obtain rfl := eq_of_mem_topLevel_singleton hu
    exact hends ⟨hkind, (mem_topLevel_singleton (by rw [hkind]; rfl)).1 hu, hheader⟩

/-- Where no header is read, a semicolon outside brackets would end the statement. -/
theorem semi_notMem_topLevel (h : Mode.walk ⟨d, false, true⟩ (ts.map Token.kind) = some m)
    (helse : ∀ t ∈ topLevel d ts, t.kind ≠ .keyword .elseKw) :
    ∀ t ∈ topLevel d ts, t.kind ≠ .semi := by
  induction ts generalizing d with
  | nil => simp [topLevel]
  | cons t ts ih =>
    rw [map_cons, Mode.walk_cons] at h
    obtain ⟨n, hstep, hwalk⟩ := Option.bind_eq_some_iff.1 h
    rw [topLevel_cons (Mode.step_eq_some hstep).2.2.1] at helse ⊢
    obtain ⟨hn, hsemi⟩ := plain_of_step hstep rfl (.inr rfl) fun u hu =>
      helse u (mem_append_left _ hu)
    rw [hn] at hwalk
    intro u hu
    rcases mem_append.1 hu with hu | hu
    · exact hsemi u hu
    · exact ih hwalk (fun v hv => helse v (mem_append_right _ hv)) u hu

/-- Whether a header is being read behind a token outside brackets. -/
def headerPast (reading : Bool) (t : Token) : Bool :=
  if t.kind = .opening .brace then false
  else if t.kind = .keyword .elseKw then true
  else reading

/-- One token of a statement that has begun moves the flag only outside brackets. -/
theorem foldl_headerPast (t : Token) (d : Nat) (reading : Bool) :
    (topLevel d [t]).foldl headerPast reading =
      Mode.headerAfter ⟨d, reading, true⟩ t.kind := by
  cases hcloses : t.kind.closes with
  | true =>
    -- A closing bracket leaves the flag alone, wherever it stands.
    have hpast : headerPast reading t = reading := by
      unfold headerPast
      cases hk : t.kind <;> simp_all [TokenKind.closes]
    have hafter : Mode.headerAfter ⟨d, reading, true⟩ t.kind = reading := by
      unfold Mode.headerAfter
      cases hk : t.kind <;> simp_all [TokenKind.closes]
    rw [hafter, topLevel, hcloses, if_pos rfl]
    split <;> simp [topLevel, hpast]
  | false =>
    cases d with
    | zero => simp [topLevel, hcloses, headerPast, Mode.headerAfter]
    | succ d => simp [topLevel, hcloses, Mode.headerAfter]

/-- Balanced tokens without a semicolon outside brackets are taken into a statement that has
begun, and the flag behind them is read off the tokens outside brackets. -/
theorem walk_of_single (h : nest d (ts.map Token.kind) = some e)
    (heof : ∀ t ∈ ts, t.kind ≠ .eof) (hsingle : ∀ t ∈ topLevel d ts, t.kind ≠ .semi)
    (reading : Bool) :
    Mode.walk ⟨d, reading, true⟩ (ts.map Token.kind) =
      some ⟨e, (topLevel d ts).foldl headerPast reading, true⟩ := by
  induction ts generalizing d reading with
  | nil =>
    cases h
    rfl
  | cons t ts ih =>
    rw [map_cons, nest_cons] at h
    obtain ⟨f, hf, hts⟩ := Option.bind_eq_some_iff.1 h
    rw [topLevel_cons hf] at hsingle ⊢
    have hstep : Mode.step ⟨d, reading, true⟩ t.kind =
        some ⟨f, (topLevel d [t]).foldl headerPast reading, true⟩ := by
      have hends : ¬(t.kind = .eof ∨ t.kind = .semi ∧ d = 0 ∧ reading = false) := by
        rintro (hk | ⟨hk, hzero, -⟩)
        · exact heof t mem_cons_self hk
        · exact hsingle t (mem_append_left _
            ((mem_topLevel_singleton (by rw [hk]; rfl)).2 hzero)) hk
      rw [Mode.step, if_neg hends, hf, Option.map_some, foldl_headerPast]
    rw [map_cons, Mode.walk_cons, hstep, Option.bind_some, foldl_append]
    exact ih hts (fun u hu => heof u (mem_cons_of_mem t hu))
      (fun u hu => hsingle u (mem_append_right _ hu)) _

/-- A clause is taken into a statement that has begun, as far as no header is read. -/
theorem walk_of_plain (h : nest d (ts.map Token.kind) = some e)
    (heof : ∀ t ∈ ts, t.kind ≠ .eof)
    (hplain : ∀ t ∈ topLevel d ts, t.kind ≠ .semi ∧ t.kind ≠ .keyword .elseKw) :
    Mode.walk ⟨d, false, true⟩ (ts.map Token.kind) = some ⟨e, false, true⟩ := by
  have hflag : ∀ us : List Token, (∀ u ∈ us, u.kind ≠ .keyword .elseKw) →
      us.foldl headerPast false = false := by
    intro us hus
    induction us with
    | nil => rfl
    | cons u us ih =>
      have hpast : headerPast false u = false := by
        simp [headerPast, hus u mem_cons_self]
      rw [foldl_cons, hpast]
      exact ih fun v hv => hus v (mem_cons_of_mem u hv)
  rw [walk_of_single h heof (fun t ht => (hplain t ht).1) false, hflag _ fun t ht =>
    (hplain t ht).2]

/-- A clause whose first token opens no header is one statement. -/
theorem IsClause.walk_eq {a : Token} (h : IsClause (a :: ts)) (heof : ∀ t ∈ ts, t.kind ≠ .eof)
    (hstep : Mode.outside.step a.kind = some .whole) :
    Mode.outside.walk ((a :: ts).map Token.kind) = some .whole := by
  have hnest : nestStep 0 a.kind = some 0 := (Mode.step_eq_some hstep).2.2.1
  have hbalanced := h.balanced
  rw [map_cons, nest_cons, hnest] at hbalanced
  have hplain := h.plain
  rw [topLevel_cons hnest] at hplain
  rw [map_cons, Mode.walk_cons, hstep]
  exact walk_of_plain hbalanced heof fun t ht => hplain t (mem_append_right _ ht)

/-- Tokens that are taken in from the front of a statement are a clause if they are balanced,
begin with no header and hold no `else` outside brackets. -/
theorem isClause_of_walk (h : Mode.outside.walk ((t :: ts).map Token.kind) = some m)
    (hdepth : m.depth = 0) (hfront : SplitState.opensHeader t.kind = false)
    (helse : ∀ u ∈ topLevel 0 (t :: ts), u.kind ≠ .keyword .elseKw) : IsClause (t :: ts) := by
  have hnest : nest 0 ((t :: ts).map Token.kind) = some 0 := by
    have := Mode.nest_of_walk h
    rwa [hdepth] at this
  refine ⟨hnest, fun u hu => ⟨?_, helse u hu⟩⟩
  rw [map_cons, Mode.walk_cons] at h
  obtain ⟨n, hstep, hwalk⟩ := Option.bind_eq_some_iff.1 h
  have hnestStep : nestStep 0 t.kind = some n.depth := (Mode.step_eq_some hstep).2.2.1
  rw [topLevel_cons hnestStep] at helse hu
  obtain ⟨hn, hsemi⟩ := plain_of_step hstep rfl (.inl hfront) fun u hu =>
    helse u (mem_append_left _ hu)
  rw [hn] at hwalk
  rcases mem_append.1 hu with hu | hu
  · exact hsemi u hu
  · exact semi_notMem_topLevel hwalk (fun v hv => helse v (mem_append_right _ hv)) u hu

/-! ### Statements of a list of tokens -/

/-- A statement whose tokens are taken in from its front to its end, and leave no bracket
open. -/
def TakenFrom (st : Statement) (ts : List Token) : Prop :=
  ∃ xs p ys, ts = xs ++ p ++ ys ∧ st.first = xs.length ∧ st.last + 1 = xs.length + p.length ∧
    ∃ m, Mode.outside.walk (p.map Token.kind) = some m ∧ m.depth = 0

/-- A splitting has taken in tokens, behind those of earlier statements. -/
structure SplitState.Took (s : SplitState) (front taken : List Token) : Prop where
  walk : Mode.outside.walk (taken.map Token.kind) = some s.mode
  range : ∀ c, s.current = some c →
    c.first = front.length ∧ c.last + 1 = front.length + taken.length

/-- Outside brackets the current statement can be closed. -/
theorem SplitState.Took.close {s : SplitState} (h : s.Took front taken) (hdepth : s.depth = 0)
    {terminator : Option Nat} (hst : st ∈ s.close terminator) (ts : List Token) :
    TakenFrom st (front ++ taken ++ ts) := by
  unfold SplitState.close at hst
  cases hc : s.current with
  | none =>
    rw [hc] at hst
    cases hst
  | some c =>
    rw [hc] at hst
    obtain rfl := mem_singleton.1 hst
    obtain ⟨hfirst, hlast⟩ := h.range c hc
    exact ⟨front, taken, ts, rfl, hfirst, hlast, s.mode, h.walk, hdepth⟩

/-- The current statement takes in one token more. -/
theorem SplitState.Took.take {s : SplitState} (h : s.Took front taken)
    (hstep : s.mode.step t.kind = some m) :
    (s.take (front.length + taken.length) t).Took front (taken ++ [t]) where
  walk := by
    rw [map_append, Mode.walk_append, h.walk, mode_take _ (Mode.pass_of_step hstep)]
    exact (bind_pure _).trans hstep
  range := by
    intro c hc
    rw [length_append, length_singleton]
    cases hcurrent : s.current with
    | none =>
      have hnil : taken = [] := by
        by_contra hne
        have hinside :=
          Mode.inside_of_run (Mode.run_of_walk h.walk) (.inl (by simpa using hne))
        rw [SplitState.mode, hcurrent] at hinside
        cases hinside
      simp only [SplitState.take, hcurrent, Option.some.injEq] at hc
      subst hc hnil
      exact ⟨rfl, rfl⟩
    | some c' =>
      simp only [SplitState.take, hcurrent, Option.some.injEq] at hc
      subst hc
      exact ⟨(h.range c' hcurrent).1, rfl⟩

/-- Every statement of a splitting of balanced tokens is taken from them. -/
theorem SplitState.Took.split {s : SplitState} (h : s.Took front taken)
    (hnest : nest s.depth (ts.map Token.kind) = some 0) (heof : ∀ t ∈ ts, t.kind ≠ .eof)
    (hst : st ∈ Source.split (front.length + taken.length) s ts) :
    TakenFrom st (front ++ taken ++ ts) := by
  induction ts generalizing front taken s with
  | nil => exact h.close (Option.some.inj hnest) hst []
  | cons t ts ih =>
    obtain ⟨ht, heof'⟩ := forall_mem_cons.1 heof
    rw [Source.split, if_neg ht] at hst
    rw [map_cons, nest_cons] at hnest
    obtain ⟨d, hd, hts⟩ := Option.bind_eq_some_iff.1 hnest
    cases hsplits : s.splitsAt t.kind with
    | true =>
      rw [hsplits, if_pos rfl] at hst
      simp only [SplitState.splitsAt, Bool.and_eq_true, beq_iff_eq,
        Bool.not_eq_true'] at hsplits
      obtain ⟨⟨hkind, hzero⟩, hheader⟩ := hsplits
      rcases mem_append.1 hst with hst | hst
      · exact h.close hzero hst (t :: ts)
      · -- The next statement begins behind the semicolon.
        obtain rfl : s.depth = d := by
          rw [hkind] at hd
          exact Option.some.inj hd
        have hnext :
            SplitState.Took ⟨s.depth, s.header, none⟩ (front ++ taken ++ [t]) [] := by
          refine ⟨?_, fun c hc => by cases hc⟩
          rw [hzero, hheader]
          rfl
        have hlength : front.length + taken.length + 1 =
            (front ++ taken ++ [t]).length + ([] : List Token).length := by
          simp only [length_append, length_singleton, length_nil, Nat.add_zero]
        rw [hlength] at hst
        have hrest := ih hnext hts heof' hst
        rwa [append_nil, append_assoc _ [t], singleton_append] at hrest
    | false =>
      rw [hsplits, if_neg Bool.false_ne_true] at hst
      have hstep : s.mode.step t.kind = some ⟨d, s.mode.headerAfter t.kind, true⟩ := by
        unfold Mode.step
        rw [if_neg, show s.mode.depth = s.depth from rfl, hd]
        · rfl
        · rintro (hkind | ⟨hkind, hzero, hheader⟩)
          · exact ht hkind
          · have hzero : s.depth = 0 := hzero
            have hheader : s.header = false := hheader
            simp [SplitState.splitsAt, hkind, hzero, hheader] at hsplits
      have hdepth : (s.take (front.length + taken.length) t).depth = d :=
        depthAfter_of_nestStep hd
      have hlength : front.length + taken.length + 1 = front.length +
          (taken ++ [t]).length := by
        rw [length_append, length_singleton, Nat.add_assoc]
      rw [hlength] at hst
      have hrest := ih (h.take hstep) (by rwa [hdepth]) heof' hst
      rwa [← append_assoc, append_assoc _ [t], singleton_append] at hrest

/-- The tokens of a statement that is taken from others. -/
theorem TakenFrom.part {st : Statement} {ts : List Token} (h : TakenFrom st ts) :
    (∃ xs ys, ts = xs ++ part ts st.range ++ ys) ∧
      ∃ m, Mode.outside.walk ((part ts st.range).map Token.kind) = some m ∧ m.depth = 0 := by
  obtain ⟨xs, p, ys, rfl, hfirst, hlast, hwalk⟩ := h
  have hpart : Source.part (xs ++ p ++ ys) st.range = p := by
    rw [Source.part, Statement.range, hfirst, hlast, append_assoc, drop_left,
      Nat.add_sub_cancel_left, take_left]
  rw [hpart]
  exact ⟨⟨xs, ys, rfl⟩, hwalk⟩

theorem takenFrom_of_mem_split (hnest : nest 0 (ts.map Token.kind) = some 0)
    (heof : ∀ t ∈ ts, t.kind ≠ .eof) (hst : st ∈ split 0 .initial ts) : TakenFrom st ts := by
  have h : SplitState.initial.Took [] [] := ⟨rfl, fun c hc => by cases hc⟩
  exact h.split hnest heof hst

/-! ### The clauses of a statement -/

/-- The clauses of a declaration, from the tokens behind its keyword. -/
def declarationClauses (ts : List Token) : List (List Token) :=
  match ts with
  | [] => []
  | t :: us =>
    if t.kind = .opening .paren then
      match closingIndex 0 ts with
      | none => []
      | some n =>
        (split 0 .initial (us.take (n - 1))).map fun spec => part (us.take (n - 1)) spec.range
    else [ts]

/-- The clauses in which a statement binds names, from its tokens. -/
def clausesOf (ts : List Token) : List (List Token) :=
  match ts with
  | [] => []
  | t :: us =>
    match t.kind with
    | .keyword .varKw | .keyword .constKw => declarationClauses us
    | _ => [ts]

/-- The value of a specification is a part of it. -/
theorem exists_value_of_specBindings (hts : IsClause ts) (hb : b ∈ specBindings ts)
    (hv : b.value = some v) : ∃ p, PartOf p ts ∧ IsValue p ∧ extent p = some v :=
  exists_value_of_pairValues hts (partOf_behindAssign hts.balanced) hb hv

theorem exists_value_of_assignmentBindings (hts : IsClause ts)
    (hb : b ∈ assignmentBindings ts) (hv : b.value = some v) :
    ∃ p, PartOf p ts ∧ IsValue p ∧ extent p = some v := by
  unfold assignmentBindings at hb
  split at hb
  · cases hb
  next left op right hcut =>
    split at hb
    · cases hb
    · split at hb
      · cases hb
      · exact exists_value_of_pairValues hts (partOf_of_cutAssignment hts.balanced hcut) hb hv

theorem pairValues_nil (values : List Token) (define : Bool) :
    pairValues [] values define = [] := by
  unfold pairValues
  dsimp only
  split <;> simp

/-- A specification that binds something begins with a name. -/
theorem exists_ident_of_specBindings (hb : b ∈ specBindings ts) :
    ∃ a us, ts = a :: us ∧ a.kind = .ident := by
  have hnames : specNames ts ≠ [] := by
    intro hnil
    rw [specBindings, hnil, pairValues_nil] at hb
    cases hb
  fun_cases specNames ts with
  | case1 a c us ha hc => exact ⟨a, c :: us, rfl, ha⟩
  | case2 a c us ha hc => exact ⟨a, c :: us, rfl, ha⟩
  | case3 a c us ha => exact absurd (by rw [specNames, if_neg ha]) hnames
  | case4 a ha => exact ⟨a, [], rfl, ha⟩
  | case5 a ha => exact absurd (by rw [specNames, if_neg ha]) hnames
  | case6 => exact absurd rfl hnames

/-- So does an assignment. -/
theorem exists_ident_of_assignmentBindings (hb : b ∈ assignmentBindings ts) :
    ∃ a us, ts = a :: us ∧ a.kind = .ident := by
  unfold assignmentBindings at hb
  split at hb
  · cases hb
  next left op right hcut =>
    split at hb
    · cases hb
    · split at hb
      · cases hb
      next names hnames =>
        rw [eq_of_cutAssignment hcut]
        fun_cases plainNames left with
        | case1 =>
          cases hnames
          rw [pairValues_nil] at hb
          cases hb
        | case2 a ha => exact ⟨a, op :: right, rfl, ha⟩
        | case3 a ha =>
          rw [plainNames, if_neg ha] at hnames
          cases hnames
        | case4 a c us hac => exact ⟨a, c :: us ++ op :: right, rfl, hac.1⟩
        | case5 a c us hac =>
          rw [plainNames, if_neg hac] at hnames
          cases hnames

/-- The value of a binding of a group is a part of one of its specifications. -/
theorem exists_value_of_groupBindings (hnest : nest 0 (ts.map Token.kind) = some 0)
    (heof : ∀ t ∈ ts, t.kind ≠ .eof)
    (helse : ∀ spec ∈ split 0 .initial ts, ∀ t ∈ topLevel 0 (part ts spec.range),
      t.kind ≠ .keyword .elseKw)
    (hb : b ∈ groupBindings ts) (hv : b.value = some v) :
    ∃ p xs ys, ts = xs ++ p ++ ys ∧ IsValue p ∧ extent p = some v := by
  obtain ⟨spec, hspec, hb⟩ := mem_flatMap.1 hb
  obtain ⟨⟨front, back, hts⟩, m, hwalk, hdepth⟩ :=
    (takenFrom_of_mem_split hnest heof hspec).part
  have hplain := helse spec hspec
  generalize part ts spec.range = clause at hts hwalk hplain hb
  obtain ⟨a, us, rfl, ha⟩ := exists_ident_of_specBindings hb
  have hclause := isClause_of_walk hwalk hdepth (by rw [ha]; rfl) hplain
  obtain ⟨p, hpart, hvalue, hextent⟩ := exists_value_of_specBindings hclause hb hv
  obtain ⟨xs, ys, heq⟩ := hpart.exists_eq
  exact ⟨p, front ++ xs, ys ++ back, by rw [hts, heq]; simp only [append_assoc], hvalue,
    hextent⟩

/-- The value of a declaration's binding is a part of one of its clauses. -/
theorem exists_value_of_declarationBindings {us : List Token}
    (ht : t.kind = .keyword .varKw ∨ t.kind = .keyword .constKw)
    (hwalk : Mode.outside.walk ((t :: us).map Token.kind) = some .whole)
    (heof : ∀ u ∈ us, u.kind ≠ .eof)
    (helse : ∀ c ∈ declarationClauses us, ∀ u ∈ topLevel 0 c, u.kind ≠ .keyword .elseKw)
    (hb : b ∈ declarationBindings us) (hv : b.value = some v) :
    ∃ p xs ys, t :: us = xs ++ p ++ ys ∧ IsValue p ∧ extent p = some v := by
  have hstep : nestStep 0 t.kind = some 0 := by
    rcases ht with ht | ht <;> rw [ht] <;> rfl
  have hnest : nest 0 (us.map Token.kind) = some 0 := by
    have h : nest 0 ((t :: us).map Token.kind) = some 0 := Mode.nest_of_walk hwalk
    rw [map_cons, nest_cons, hstep] at h
    exact h
  cases us with
  | nil =>
    obtain ⟨a, us, hnil, -⟩ := exists_ident_of_specBindings hb
    cases hnil
  | cons u vs =>
    by_cases hparen : u.kind = .opening .paren
    · obtain ⟨n, hn, hindex⟩ :=
        exists_closingIndex_cons hparen (foldl_depthAfter_of_nest hnest)
      have hinner : nest 0 ((vs.take n).map Token.kind) = some 0 :=
        (nest_take_closingIndex hn).1
      rw [declarationBindings, if_pos hparen, hindex] at hb
      rw [declarationClauses, if_pos hparen, hindex] at helse
      dsimp only at hb helse
      rw [Nat.add_sub_cancel] at hb helse
      obtain ⟨p, xs, ys, heq, hvalue, hextent⟩ := exists_value_of_groupBindings hinner
        (fun w hw => heof w (mem_cons_of_mem u (mem_of_mem_take hw)))
        (fun spec hspec => helse _ (mem_map_of_mem hspec)) hb hv
      refine ⟨p, t :: u :: xs, ys ++ vs.drop n, ?_, hvalue, hextent⟩
      calc t :: u :: vs = t :: u :: (vs.take n ++ vs.drop n) := by rw [take_append_drop]
        _ = t :: u :: xs ++ p ++ (ys ++ vs.drop n) := by simp [heq]
    · rw [declarationBindings, if_neg hparen] at hb
      rw [declarationClauses, if_neg hparen] at helse
      have hwhole : IsClause (t :: u :: vs) := by
        refine isClause_of_walk hwalk rfl (by rcases ht with ht | ht <;> rw [ht] <;> rfl) ?_
        intro w hw
        rw [topLevel_cons hstep] at hw
        rcases mem_append.1 hw with hw | hw
        · rw [eq_of_mem_topLevel_singleton hw]
          rcases ht with ht | ht <;> rw [ht] <;> decide
        · exact helse _ (mem_singleton_self _) w hw
      have hclause : IsClause (u :: vs) := by
        refine hwhole.part ⟨[t], [], by simp, ?_, hnest⟩
        rw [map_singleton, nest_cons, hstep]
        rfl
      obtain ⟨p, hpart, hvalue, hextent⟩ := exists_value_of_specBindings hclause hb hv
      obtain ⟨xs, ys, heq⟩ := hpart.exists_eq
      exact ⟨p, t :: xs, ys, by rw [heq]; rfl, hvalue, hextent⟩

/-- The value of a binding stands in its statement as balanced tokens that nothing splits, if
no `else` stands outside the brackets of a clause. -/
theorem exists_value_of_bindingsOf
    (hwalk : Mode.outside.walk (ts.map Token.kind) = some .whole)
    (heof : ∀ t ∈ ts, t.kind ≠ .eof)
    (helse : ∀ c ∈ clausesOf ts, ∀ t ∈ topLevel 0 c, t.kind ≠ .keyword .elseKw)
    (hb : b ∈ bindingsOf ts) (hv : b.value = some v) :
    ∃ p xs ys, ts = xs ++ p ++ ys ∧ IsValue p ∧ extent p = some v := by
  cases ts with
  | nil => cases hb
  | cons t us =>
    have heof' : ∀ u ∈ us, u.kind ≠ .eof := fun u hu => heof u (mem_cons_of_mem t hu)
    have hassignment : clausesOf (t :: us) = [t :: us] → b ∈ assignmentBindings (t :: us) →
        ∃ p xs ys, t :: us = xs ++ p ++ ys ∧ IsValue p ∧ extent p = some v := by
      intro hclauses hb
      rw [hclauses] at helse
      obtain ⟨a, vs, heq, ha⟩ := exists_ident_of_assignmentBindings hb
      cases heq
      have hclause := isClause_of_walk hwalk rfl (by rw [ha]; rfl)
        (helse _ (mem_singleton_self _))
      obtain ⟨p, hpart, hvalue, hextent⟩ := exists_value_of_assignmentBindings hclause hb hv
      obtain ⟨xs, ys, heq⟩ := hpart.exists_eq
      exact ⟨p, xs, ys, heq, hvalue, hextent⟩
    cases hk : t.kind with
    | keyword k =>
      simp only [bindingsOf, hk] at hb
      cases k with
      | varKw =>
        simp only [clausesOf, hk] at helse
        exact exists_value_of_declarationBindings (.inl hk) hwalk heof' helse hb hv
      | constKw =>
        simp only [clausesOf, hk] at helse
        exact exists_value_of_declarationBindings (.inr hk) hwalk heof' helse hb hv
      | _ => exact hassignment (by simp only [clausesOf, hk]) hb
    | _ =>
      simp only [bindingsOf, hk] at hb
      exact hassignment (by simp only [clausesOf, hk]) hb

end Source

end Notebook
