import Notebook.Proofs.ChangedRows
import Notebook.Proofs.PersistenceRows

/-!
# One storing call for each name

A plan gives every stored name one storing call, at the end of the entry function.  If the
calls that are there already store distinct names, a second plan finds what the first one has
left: the same names and literals, and the same statements in their order.  There is one
exception.  A name `nil` can be bound, but a call that stores it is taken for one that stores
nothing, and so the second plan takes it out and puts it behind all others.
-/

namespace Notebook

open Lexer List PersistencePlan

variable {bodies calls : List (List Piece)} {back front : List Piece} {rows : List Row}
  {sts : List Statement} {fresh names : List Text} {s : Source} {name : Text}

/-! ### Storing calls as plans write them -/

/-- The name of the empty value. -/
def nilName : Text := "nil"

/-- The tokens of a call that stores a variable. -/
def callContents (name : Text) : List (TokenKind × Text) :=
  [(.ident, "_Serialize"), (.opening .paren, "("), (.str, "\"" ++ variableKey name ++ "\""),
    (.comma, ","), (.ident, name), (.closing .paren, ")")]

/-- Whether a statement is a call that stores a variable. -/
def Source.StoresName (s : Source) (st : Statement) (name : Text) : Prop :=
  (s.tokensOf st).map Token.content = callContents name

instance (s : Source) (st : Statement) (name : Text) : Decidable (s.StoresName st name) :=
  inferInstanceAs (Decidable (_ = _))

/-- Whether pieces are a call that stores a variable. -/
def StoresAs (body : List Piece) (name : Text) : Prop :=
  (scan .start false body).map Token.content = callContents name

theorem Statement.Spells.storesName_iff {st : Statement} {body : List Piece}
    (h : st.Spells s body) : s.StoresName st name ↔ StoresAs body name := by
  obtain ⟨here, htokens, -⟩ := h.tokensOf_eq
  rw [Source.StoresName, htokens, scan_eq_map, map_map]
  exact Iff.rfl

namespace StoresAs

variable {body : List Piece}

theorem exists_tokens (h : StoresAs body name) : ∃ f l k c x r,
    scan .start false body = [f, l, k, c, x, r] ∧ f.kind = .ident ∧ f.lexeme = "_Serialize" ∧
      l.kind = .opening .paren ∧ k.kind = .str ∧ c.kind = .comma ∧ x.kind = .ident ∧
      x.lexeme = name ∧ r.kind = .closing .paren := by
  simp only [StoresAs, callContents, map_eq_cons_iff, map_eq_nil_iff] at h
  obtain ⟨f, _, hscan, hf, l, _, rfl, hl, k, _, rfl, hk, c, _, rfl, hc, x, _, rfl, hx,
    r, _, rfl, hr, rfl⟩ := h
  simp only [Token.content, Prod.mk.injEq] at hf hl hk hc hx hr
  exact ⟨f, l, k, c, x, r, hscan, hf.1, hf.2, hl.1, hk.1, hc.1, hx.1, hx.2, hr.1⟩

theorem storesValue_eq (h : StoresAs body name) : storesValue body = true := by
  obtain ⟨f, l, k, c, x, r, hscan, hf, hlexeme, hl, -, -, -, -, hr⟩ := h.exists_tokens
  rw [storesValue, ← map_kind_scan .start, hscan]
  simp [Source.startsPersistence, Token.isIdent, hf, hlexeme, hl, hr]

/-- The name that a call stores is read back, unless it is `nil`. -/
theorem storedName?_eq (h : StoresAs body name) :
    storedName? body = if name = nilName then none else some name := by
  obtain ⟨f, l, k, c, x, r, hscan, -, -, -, hk, hc, hx, rfl, -⟩ := h.exists_tokens
  rw [storedName?, ← length_scan .start, hscan]
  by_cases hnil : x.lexeme = ['n', 'i', 'l'] <;>
    simp [persistedName?, Token.isIdent, nilName, hk, hc, hx, hnil]

/-- A storing call captures nothing. -/
theorem capturesOf_eq (h : StoresAs body name) : capturesOf body = [] := by
  obtain ⟨f, l, k, c, x, r, hscan, hf, -, hl, hk, hc, hx, -, hr⟩ := h.exists_tokens
  rw [capturesOf, hscan]
  simp [Source.bindingsOf, Source.assignmentBindings, Source.cutAssignment, Source.assigns,
    TokenKind.opens, TokenKind.closes, hf, hl, hk, hc, hx, hr]

end StoresAs

/-- The pieces of the call that stores a variable. -/
def callPieces (name : Text) : List Piece :=
  [⟨.token .ident, "_Serialize"⟩, ⟨.token (.opening .paren), ['(']⟩,
    ⟨.token .str, "\"" ++ variableKey name ++ "\""⟩, ⟨.token .comma, [',']⟩, ⟨.blank, [' ']⟩,
    ⟨.token .ident, name⟩, ⟨.token (.closing .paren), [')']⟩]

theorem textOf_callPieces (name : Text) :
    textOf (callPieces name) = persistenceCall name := by
  have hfront : "_Serialize(\"".toList = "_Serialize".toList ++ ['(', '"'] := rfl
  have hmid : "\", ".toList = ['"', ',', ' '] := rfl
  unfold persistenceCall
  rw [hfront, hmid]
  simp [callPieces]

theorem storesAs_callPieces (name : Text) : StoresAs (callPieces name) name :=
  rfl

theorem standsAlone_callPieces (h : IsIdentifier name) : StandsAlone (callPieces name) := by
  have hname : Lexed [⟨.token .ident, name⟩, ⟨.token (.closing .paren), [')']⟩] := by
    refine lexed_cons.2 ⟨h.reads ?_, by decide +kernel⟩
    rintro d ⟨⟩
    decide
  have hcomma : Lexed ([⟨.token .comma, [',']⟩, ⟨.blank, [' ']⟩] ++
      [⟨.token .ident, name⟩, ⟨.token (.closing .paren), [')']⟩]) := by
    refine lexed_append (by decide +kernel) hname (by decide) ?_
    rintro p ⟨⟩
    exact .inl rfl
  have hkey : ∀ rest, Reads ⟨.token .str, "\"" ++ variableKey name ++ "\""⟩ rest :=
    reads_quoted rfl h.isQuotedClosed_key
  have hfront : Lexed [⟨.token .ident, "_Serialize"⟩, ⟨.token (.opening .paren), ['(']⟩] := by
    decide +kernel
  refine ⟨lexed_append hfront (lexed_cons.2 ⟨hkey _, hcomma⟩) (by decide) ?_, ?_,
    ⟨rfl, ?_, ?_⟩, rfl⟩
  · rintro p ⟨⟩
    exact .inl rfl
  · intro p hp
    simp only [callPieces, mem_cons, not_mem_nil, or_false] at hp
    rcases hp with rfl | rfl | rfl | rfl | rfl | rfl | rfl
    · rfl
    · rfl
    · exact h.isQuotedClosed_key
    all_goals rfl
  · rintro p ⟨⟩
    rfl
  · rintro p ⟨⟩
    rfl

/-! ### Calls on lines of their own -/

/-- A storing call may be put on a line of its own. -/
theorem Row.Ended.ownLine {r : Row} (h : r.Ended) (hstores : storesValue r.body = true) :
    Row.Ended ⟨r.body, [lineEnd]⟩ := by
  have hstatement : IsStatement r.body := by
    refine (h.body.resolve_left fun hnil => ?_).1
    rw [hnil] at hstores
    cases hstores
  obtain ⟨-, hlast⟩ := Bool.and_eq_true_iff.1 hstores
  obtain ⟨ps, p, hbody⟩ : ∃ ps p, r.body = ps ++ [p] := by
    rcases eq_nil_or_concat r.body with hnil | ⟨ps, p, hps⟩
    · exact absurd hnil hstatement.ne_nil
    · exact ⟨ps, p, by rw [hps, concat_eq_append]⟩
  -- The last piece is the parenthesis that closes the call.
  obtain ⟨k, hk⟩ := Piece.isToken_iff.1 (hstatement.back p (by simp [hbody]))
  have hparen : p.kind = .token (.closing .paren) := by
    rw [hbody, kinds_append, kinds_cons, kinds_nil, Piece.emittedKinds, hk] at hlast
    rw [hk]
    simpa using hlast
  have hlexed : Lexed (r.body ++ [lineEnd]) := by
    refine h.lexed.left.append (by decide +kernel) ?_ ?_
    · intro q hq
      rw [hbody, getLast?_concat] at hq
      cases hq
      simp [Piece.isClosed, hparen]
    · intro q hq
      rw [hbody, getLast?_concat] at hq
      cases hq
      exact .inl (by simp [Piece.isSolid, hparen])
  refine ⟨hlexed, ?_, ?_, .inr ⟨hstatement, ?_⟩⟩
  · intro q hq
    rw [mem_singleton.1 hq]
    rfl
  · rintro q ⟨⟩
    exact ⟨rfl, rfl⟩
  · have hpending : pendingAfter false r.body = true := by
      rw [hbody, pendingAfter_append]
      simp only [pendingAfter_cons, pendingAfter_nil, Piece.pendingBehind, hparen]
      rfl
    simp only [hpending]
    decide

theorem ended_lineRows {bs : List (List Piece)} (h : ∀ b ∈ bs, Row.Ended ⟨b, [lineEnd]⟩) :
    ∀ r ∈ lineRows bs, r.Ended := by
  intro r hr
  obtain ⟨b, hb, hr⟩ := mem_flatMap.1 hr
  rcases mem_cons.1 hr with rfl | hr
  · exact sound_tabRow.ended
  · rw [mem_singleton.1 hr]
    exact h b hb

/-! ### Names that are captured -/

/-- Whether a binding counts: its name is not blank, it has a right-hand side, and the value
of its own, if it has one, is not `nil`. -/
def Source.isCaptured (s : Source) (b : Binding) : Bool :=
  b.name != blankName && b.rhs.isSome &&
    b.value.all fun v => (s.slice v).toOption.all fun text => text.trim != nilName

/-- The names of the bindings in an entry function that count, each where it first comes. -/
def Source.capturedNames (s : Source) (entry : EntryPoint) : List Text :=
  ((((s.bodyStatements entry).flatMap s.bindings).filter s.isCaptured).map
    Binding.name).eraseDups

theorem map_name_captured {b : Binding} (h : b.FitsIn s.text) :
    (captured s b).map Capture.name = if s.isCaptured b then some b.name else none := by
  unfold captured capture? Source.isCaptured
  by_cases hblank : b.name = blankName
  · simp [hblank]
  · cases hvalue : b.value with
    | none => cases b.rhs <;> simp [hblank]
    | some v =>
      have hrhs : b.rhs.isSome = true := h.own (by rw [hvalue]; rfl)
      obtain ⟨text, htext⟩ := (h.value v hvalue).slice
      have htext' : s.slice v = .ok text := htext
      have hword : "nil".toList = nilName := rfl
      rw [hword]
      by_cases hnil : text.trim = nilName
      · simp [hblank, htext', hnil, bind, Except.bind, Except.toOption, pure, Except.pure]
      · simp [hblank, hrhs, htext', hnil, bind, Except.bind, Except.toOption,
          pure, Except.pure]

theorem eraseDups_filter {α : Type} [BEq α] [LawfulBEq α] (p : α → Bool) (l : List α) :
    (l.filter p).eraseDups = l.eraseDups.filter p := by
  -- The members that are dropped with the first one make the list shorter.
  induction hn : l.length using Nat.strong_induction_on generalizing l with
  | _ n ih =>
    cases l with
    | nil => rfl
    | cons a l =>
      have hshorter : (l.filter fun b => !b == a).length < n := by
        have := length_filter_le (fun b => !b == a) l
        rw [length_cons] at hn
        omega
      have hrest := ih _ hshorter (l.filter fun b => !b == a) rfl
      rw [eraseDups_cons, filter_cons, filter_cons, ← hrest]
      split
      · rw [eraseDups_cons, filter_filter, filter_filter]
        simp only [Bool.and_comm]
      next ha =>
        rw [filter_filter]
        refine congrArg _ (filter_congr fun b _ => ?_)
        by_cases hb : b = a
        · simp [hb, ha]
        · simp [hb]

theorem map_fst_firstNamed (ps : List NamedLiteral) :
    (firstNamed ps).map Prod.fst = (ps.map Prod.fst).eraseDups := by
  induction ps with
  | nil => rfl
  | cons p ps ih =>
    rw [firstNamed, map_cons, map_cons, eraseDups_cons, eraseDups_filter, ← ih,
      filter_map]
    refine congrArg (fun l => p.1 :: List.map Prod.fst l) (filter_congr fun q _ => ?_)
    by_cases hq : q.1 = p.1 <;> simp [hq]

/-- Leaving out what adds nothing. -/
theorem flatMap_filter_of_nil {α β : Type} {p : α → Bool} {f : α → List β} {l : List α}
    (h : ∀ x ∈ l, p x = false → f x = []) : (l.filter p).flatMap f = l.flatMap f := by
  induction l with
  | nil => rfl
  | cons x l ih =>
    have hl := ih fun y hy => h y (mem_cons_of_mem x hy)
    cases hx : p x with
    | true => rw [filter_cons_of_pos hx, flatMap_cons, flatMap_cons, hl]
    | false =>
      rw [filter_cons_of_neg (by simp [hx]), flatMap_cons,
        h x mem_cons_self hx, hl]
      rfl

/-- The names that statements capture, if the storing calls among them are as plans write
them. -/
theorem map_fst_capturedEntries
    (hspells : Forall₂ (fun st body => st.Spells s body) sts bodies)
    (hlexed : ∀ b ∈ bodies, Lexed b)
    (hcalls : ∀ b ∈ bodies, storesValue b = true → ∃ name, StoresAs b name) :
    (capturedEntries bodies).map Prod.fst =
      (((sts.flatMap s.bindings).filter s.isCaptured).map Binding.name).eraseDups := by
  have hnone : ∀ b ∈ bodies, (!storesValue b) = false → capturesOf b = [] := by
    intro b hb hstores
    obtain ⟨name, hname⟩ := hcalls b hb (by simpa using hstores)
    exact hname.capturesOf_eq
  rw [capturedEntries, map_fst_firstNamed, flatMap_filter_of_nil hnone,
    ← captures_of_spells hspells hlexed, map_filterMap]
  congr 1
  rw [← filterMap_eq_map, filterMap_filter]
  refine filterMap_congr fun b hb => ?_
  obtain ⟨st, -, hb⟩ := mem_flatMap.1 hb
  rw [Option.map_map]
  exact map_name_captured (Source.bindings_fit hb)

theorem eraseDups_of_nodup {l : List Text} (h : l.Nodup) : l.eraseDups = l := by
  induction l with
  | nil => rfl
  | cons a l ih =>
    obtain ⟨ha, hl⟩ := nodup_cons.1 h
    have hfilter : (l.filter fun b => !b == a) = l := by
      refine filter_eq_self.2 fun b hb => ?_
      have hne : b ≠ a := fun heq => ha (heq ▸ hb)
      simpa using hne
    rw [eraseDups_cons, hfilter, ih hl]

theorem addNames_of_nodup {more : List Text} (h : more.Nodup) :
    addNames names more = names ++ more.filter (· ∉ names) := by
  rw [addNames_eq, eraseDups_of_nodup (h.filter _)]

/-! ### Plans of programs with storing calls -/

/-- The storing calls that are kept, with what they store. -/
def keptCalls (names : List Text) (calls : List (List Piece)) : List (Text × List Piece) :=
  (names.zip calls).filter fun q => q.1 ≠ nilName

theorem map_fst_keptCalls (h : names.length = calls.length) :
    (keptCalls names calls).map Prod.fst = names.filter (· ≠ nilName) := by
  have hnames := congrArg (List.filter (· ≠ nilName)) (map_fst_zip h.le)
  rw [filter_map] at hnames
  exact hnames

theorem storedCalls_eq (h : Forall₂ StoresAs (bodies.filter storesValue) names) :
    storedCalls bodies =
      (keptCalls names (bodies.filter storesValue)).map fun q => (q.1, textOf q.2) := by
  rw [storedCalls]
  generalize bodies.filter storesValue = calls at h
  induction h with
  | nil => rfl
  | @cons b name calls names hb _ ih =>
    rw [filterMap_cons, ih, keptCalls, keptCalls, zip_cons_cons, filter_cons,
      hb.storedName?_eq]
    by_cases hnil : name = nilName <;> simp [hnil]

/-- The rows of a planned program: storing calls stand on lines at the end. -/
theorem exists_plannedRows (hfront : IsOpening front) (hback : IsClosing back)
    (hrows : ∀ r ∈ rows, r.Ended)
    (hcalls : Forall₂ StoresAs ((Row.bodies rows).filter storesValue) names)
    (hdistinct : names.Nodup) {kept : List (Text × List Piece)}
    (hkept : kept = keptCalls names ((Row.bodies rows).filter storesValue))
    {captured : List Text}
    (hcaptured : captured = (capturedEntries (Row.bodies rows)).map Prod.fst)
    (hidents : ∀ n ∈ captured, IsIdentifier n) :
    ∃ rows' : List Row, (∀ r ∈ rows', r.Ended) ∧
      Row.bodies rows' = ((Row.bodies rows).filter fun b => !storesValue b) ++
        (kept.map Prod.snd ++ (captured.filter (· ∉ kept.map Prod.fst)).map callPieces) ∧
      planPersistence (textOf (front ++ (Row.flatten rows ++ back))) = .ok (some
        ⟨textOf (front ++ (Row.flatten rows' ++ back)),
          captured ++ (kept.map Prod.fst).filter (· ∉ captured),
          literalsOf (capturedEntries (Row.bodies rows))⟩) := by
  subst hcaptured
  have hstored : (storedCalls (Row.bodies rows)).map Prod.fst = kept.map Prod.fst := by
    rw [storedCalls_eq hcalls, ← hkept, map_map]
    rfl
  have hkeptMem : ∀ b ∈ kept.map Prod.snd, b ∈ (Row.bodies rows).filter storesValue := by
    intro b hb
    obtain ⟨q, hq, rfl⟩ := mem_map.1 hb
    rw [hkept] at hq
    exact (of_mem_zip (mem_filter.1 hq).1).2
  let fresh :=
    ((capturedEntries (Row.bodies rows)).map Prod.fst).filter (· ∉ kept.map Prod.fst)
  have hlines : (kept.map Prod.snd ++ fresh.map callPieces).map textOf =
      plannedLines (Row.bodies rows) := by
    rw [plannedLines, hstored, storedCalls_eq hcalls, ← hkept, map_append, map_map,
      map_map, map_map]
    refine congrArg _ (map_congr_left fun n _ => textOf_callPieces n)
  have hbs : ∀ b ∈ kept.map Prod.snd ++ fresh.map callPieces,
      b ≠ [] ∧ Row.Ended ⟨b, [lineEnd]⟩ := by
    intro b hb
    rcases mem_append.1 hb with hb | hb
    · obtain ⟨hbody, hstores⟩ := mem_filter.1 (hkeptMem b hb)
      obtain ⟨r, hr, hne, rfl⟩ := Row.exists_of_mem_bodies hbody
      exact ⟨hne, (hrows r hr).ownLine hstores⟩
    · obtain ⟨n, hn, rfl⟩ := mem_map.1 hb
      exact ⟨cons_ne_nil _ _,
        (standsAlone_callPieces (hidents n (mem_filter.1 hn).1)).sound.ended⟩
  refine ⟨rows.map Row.unstored ++ lineRows (kept.map Prod.snd ++ fresh.map callPieces), ?_,
    ?_, ?_⟩
  · intro r hr
    rcases mem_append.1 hr with hr | hr
    · obtain ⟨q, hq, rfl⟩ := mem_map.1 hr
      exact (hrows q hq).unstored
    · exact ended_lineRows (fun b hb => (hbs b hb).2) r hr
  · rw [Row.bodies_append, Row.bodies_unstored, bodies_lineRows fun b hb => (hbs b hb).1]
  · have hnodup : (kept.map Prod.fst).Nodup := by
      rw [hkept, map_fst_keptCalls hcalls.length_eq.symm]
      exact hdistinct.filter _
    rw [planPersistence_rows hfront hback hrows, hstored, addNames_of_nodup hnodup, ← hlines,
      ← textOf_lineRows]
    simp

/-- The storing calls of a program, from the pieces that spell its statements. -/
theorem forall₂_storesName (hspells : Forall₂ (fun st body => st.Spells s body) sts bodies) :
    Forall₂ s.StoresName (sts.filter s.isPersistence) names ↔
      Forall₂ StoresAs (bodies.filter storesValue) names := by
  have hcalls : Forall₂ (fun st body => st.Spells s body) (sts.filter s.isPersistence)
      (bodies.filter storesValue) := forall₂_filter_isPersistence hspells id
  generalize sts.filter s.isPersistence = xs at hcalls
  generalize bodies.filter storesValue = ys at hcalls
  induction hcalls generalizing names with
  | nil => cases names <;> simp
  | cons hst _ ih =>
    cases names with
    | nil => simp
    | cons name names =>
      rw [forall₂_cons, forall₂_cons, hst.storesName_iff]
      exact and_congr_right fun _ => ih

theorem keptCalls_of_notMem (hnil : nilName ∉ names) (calls : List (List Piece)) :
    keptCalls names calls = names.zip calls := by
  refine filter_eq_self.2 fun q hq => ?_
  have hne : q.1 ≠ nilName := fun heq => hnil (heq ▸ (of_mem_zip hq).1)
  simpa using hne

/-- Calls that a plan has added. -/
theorem keptCalls_append (h : names.length = calls.length) :
    keptCalls (names ++ fresh) (calls ++ fresh.map callPieces) = keptCalls names calls ++
      (fresh.filter (· ≠ nilName)).map fun n => (n, callPieces n) := by
  rw [keptCalls, zip_append h, filter_append, keptCalls]
  have hzip : fresh.zip (fresh.map callPieces) = fresh.map fun n => (n, callPieces n) := by
    have hpairs := zip_map' (f := fun n : Text => n) (g := callPieces) (l := fresh)
    rwa [map_id'] at hpairs
  rw [hzip, filter_map]
  rfl

theorem filter_append_eq {α : Type} {p : α → Bool} {xs ys : List α}
    (hxs : ∀ x ∈ xs, p x = false) (hys : ∀ y ∈ ys, p y = true) :
    (xs ++ ys).filter p = ys ∧ (xs ++ ys).filter (fun x => !p x) = xs := by
  have hx : xs.filter p = [] := filter_eq_nil_iff.2 fun x hx => by simp [hxs x hx]
  have hx' : xs.filter (fun x => !p x) = xs := filter_eq_self.2 fun x hx => by
    simp [hxs x hx]
  have hy : ys.filter p = ys := filter_eq_self.2 hys
  have hy' : ys.filter (fun x => !p x) = [] :=
    filter_eq_nil_iff.2 fun y hy => by simp [hys y hy]
  constructor
  · rw [filter_append, hx, hy, nil_append]
  · rw [filter_append, hx', hy', append_nil]

theorem nodup_append_filter {xs ys : List Text} (hxs : xs.Nodup) (hys : ys.Nodup) :
    (xs ++ ys.filter (· ∉ xs)).Nodup := by
  refine nodup_append'.2 ⟨hxs, hys.filter _, fun x hx hmem => ?_⟩
  simpa [hx] using (mem_filter.1 hmem).2

/-- When all captured names have calls, only that for `nil` has to be written again. -/
theorem filter_notMem_replanned (captured persisted : List Text) :
    captured.filter
      (· ∉ persisted ++ (captured.filter (· ∉ persisted)).filter (· ≠ nilName)) =
      (captured.filter (· ∉ persisted)).filter (· = nilName) := by
  rw [filter_filter, filter_filter]
  refine filter_congr fun n hn => ?_
  by_cases hp : n ∈ persisted <;> by_cases hw : n = nilName <;> simp [hn, hp, hw]

/-- The calls that a plan has added store captured names. -/
theorem filter_notMem_captured (captured persisted : List Text) (p q : Text → Bool) :
    (persisted ++ (captured.filter p).filter q).filter (· ∉ captured) =
      persisted.filter (· ∉ captured) := by
  have hnone : ((captured.filter p).filter q).filter (· ∉ captured) = [] := by
    refine filter_eq_nil_iff.2 fun n hn => ?_
    simp [(mem_filter.1 (mem_filter.1 hn).1).1]
  rw [filter_append, hnone, append_nil]

/-- The storing calls of a planned program, and its other statements. -/
theorem filter_storesValue_planned {others : List (List Piece)}
    (hbodies : bodies = others ++ (calls ++ fresh.map callPieces))
    (hothers : ∀ b ∈ others, storesValue b = false)
    (hcalls : ∀ b ∈ calls, storesValue b = true) :
    bodies.filter storesValue = calls ++ fresh.map callPieces ∧
      bodies.filter (fun b => !storesValue b) = others := by
  subst hbodies
  refine filter_append_eq hothers fun b hb => ?_
  rcases mem_append.1 hb with hb | hb
  · exact hcalls b hb
  · obtain ⟨n, -, rfl⟩ := mem_map.1 hb
    exact (storesAs_callPieces n).storesValue_eq

/-- The rows of a program that is planned, and planned again. -/
theorem exists_replannedRows (hfront : IsOpening front) (hback : IsClosing back)
    (hrows : ∀ r ∈ rows, r.Ended) {persisted : List Text}
    (hcalls : calls = (Row.bodies rows).filter storesValue)
    (hstores : Forall₂ StoresAs calls persisted) (hdistinct : persisted.Nodup)
    (hnil : nilName ∉ persisted) {captured : List Text}
    (hcaptured : captured = (capturedEntries (Row.bodies rows)).map Prod.fst)
    (hidents : ∀ n ∈ captured, IsIdentifier n)
    (hfresh : fresh = captured.filter (· ∉ persisted)) :
    ∃ rows' rows'' : List Row, (∀ r ∈ rows', r.Ended) ∧ (∀ r ∈ rows'', r.Ended) ∧
      Row.bodies rows' = ((Row.bodies rows).filter fun b => !storesValue b) ++
        (calls ++ fresh.map callPieces) ∧
      Row.bodies rows'' = ((Row.bodies rows).filter fun b => !storesValue b) ++
        (calls ++ (fresh.filter (· ≠ nilName) ++ fresh.filter (· = nilName)).map callPieces) ∧
      Forall₂ StoresAs ((Row.bodies rows').filter storesValue) (persisted ++ fresh) ∧
      planPersistence (textOf (front ++ (Row.flatten rows ++ back))) = .ok (some
        ⟨textOf (front ++ (Row.flatten rows' ++ back)),
          captured ++ persisted.filter (· ∉ captured),
          literalsOf (capturedEntries (Row.bodies rows))⟩) ∧
      planPersistence (textOf (front ++ (Row.flatten rows' ++ back))) = .ok (some
        ⟨textOf (front ++ (Row.flatten rows'' ++ back)),
          captured ++ persisted.filter (· ∉ captured),
          literalsOf (capturedEntries (Row.bodies rows))⟩) := by
  have hlength := hstores.length_eq.symm
  -- The calls that are there all store something.
  have hkept := keptCalls_of_notMem hnil calls
  have hnames : (persisted.zip calls).map Prod.fst = persisted := map_fst_zip hlength.le
  have hbodies : (persisted.zip calls).map Prod.snd = calls := map_snd_zip hlength.ge
  subst hcalls
  obtain ⟨rows', hrows', hbodies', hplan⟩ :=
    exists_plannedRows hfront hback hrows hstores hdistinct
      hkept.symm hcaptured hidents
  rw [hnames, hbodies, ← hfresh] at hbodies'
  rw [hnames] at hplan
  -- The second plan finds the calls that the first one has written.
  obtain ⟨hcalls', hothers'⟩ := filter_storesValue_planned hbodies'
    (fun b hb => by simpa using (mem_filter.1 hb).2) fun b hb => (mem_filter.1 hb).2
  have hentries : capturedEntries (Row.bodies rows') = capturedEntries (Row.bodies rows) := by
    rw [capturedEntries, hothers', capturedEntries]
  have hstores' : Forall₂ StoresAs ((Row.bodies rows').filter storesValue)
      (persisted ++ fresh) := by
    rw [hcalls']
    refine rel_append hstores ?_
    exact forall₂_map_left_iff.2 (forall₂_same.2 fun n _ => storesAs_callPieces n)
  have hdistinct' : (persisted ++ fresh).Nodup := by
    rw [hfresh]
    exact nodup_append_filter hdistinct (hcaptured ▸ nodup_firstNamed _)
  have hkept' : keptCalls (persisted ++ fresh) ((Row.bodies rows').filter storesValue) =
      persisted.zip ((Row.bodies rows).filter storesValue) ++
        (fresh.filter (· ≠ nilName)).map fun n => (n, callPieces n) := by
    rw [hcalls', keptCalls_append hlength, hkept]
  obtain ⟨rows'', hrows'', hbodies'', hplan'⟩ :=
    exists_plannedRows hfront hback hrows' hstores'
      hdistinct' hkept'.symm (hentries ▸ hcaptured) hidents
  have hfst :
    (fresh.filter (· ≠ nilName)).map (Prod.fst ∘ fun n : Text => (n, callPieces n)) =
      fresh.filter (· ≠ nilName) := map_id _
  have hmissing : captured.filter (· ∉ persisted ++ fresh.filter (· ≠ nilName)) =
      fresh.filter (· = nilName) := hfresh ▸ filter_notMem_replanned captured persisted
  have hmore : (persisted ++ fresh.filter (· ≠ nilName)).filter (· ∉ captured) =
      persisted.filter (· ∉ captured) :=
        hfresh ▸ filter_notMem_captured captured persisted _ _
  rw [map_append, map_append, hnames, hbodies, map_map, map_map,
    hothers', hfst, hmissing, append_assoc] at hbodies''
  rw [map_append, hnames, map_map, hentries, hfst, hmore] at hplan'
  refine ⟨rows', rows'', hrows', hrows'', hbodies', ?_, hstores', hplan, hplan'⟩
  rw [hbodies'', map_append]
  rfl

/-- **Every name has one storing call in a planned program.**  `planPersistence` stores the
`capturedNames` of the entry function, each where it first comes, and then the other names
that storing calls name (`StoresName`).  The statements of its program are those that are not
`isPersistence`, the calls that were there, and one `persistenceCall` for every name that had
none.  Planning again gives the same names and literals, and the same statements but for the
call of `nilName`, which goes to the end. -/
theorem planPersistence_single {program : Text} {entry : EntryPoint} {persisted : List Text}
    (hentry : (Source.ofText program).entryPoint = some entry)
    (hlast : ∀ st, ((Source.ofText program).bodyStatements entry).getLast? = some st →
      st.terminator ≠ none)
    (hcalls : Forall₂ (Source.ofText program).StoresName
      (((Source.ofText program).bodyStatements entry).filter
        (Source.ofText program).isPersistence)
      persisted)
    (hdistinct : persisted.Nodup) (hnil : nilName ∉ persisted) :
    let captured := (Source.ofText program).capturedNames entry
    let fresh := captured.filter (· ∉ persisted)
    ∃ plan plan' entry' entry'' others calls,
      planPersistence program = .ok (some plan) ∧
      plan.names = captured ++ persisted.filter (· ∉ captured) ∧ plan.names.Nodup ∧
      (Source.ofText program).texts (((Source.ofText program).bodyStatements entry).filter
        fun st => !(Source.ofText program).isPersistence st) = .ok others ∧
      (Source.ofText program).texts (((Source.ofText program).bodyStatements entry).filter
        (Source.ofText program).isPersistence) = .ok calls ∧
      (Source.ofText plan.program).entryPoint = some entry' ∧
      (Source.ofText plan.program).texts
        ((Source.ofText plan.program).bodyStatements entry') =
          .ok (others ++ calls ++ fresh.map persistenceCall) ∧
      Forall₂ (Source.ofText plan.program).StoresName
        (((Source.ofText plan.program).bodyStatements entry').filter
          (Source.ofText plan.program).isPersistence) (persisted ++ fresh) ∧
      plan.names.Perm (persisted ++ fresh) ∧
      planPersistence plan.program = .ok (some plan') ∧ plan'.names = plan.names ∧
      plan'.literals = plan.literals ∧
      (Source.ofText plan'.program).entryPoint = some entry'' ∧
      (Source.ofText plan'.program).texts
        ((Source.ofText plan'.program).bodyStatements entry'') =
        .ok (others ++ calls ++ (fresh.filter (· ≠ nilName) ++
          fresh.filter (· = nilName)).map persistenceCall) := by
  intro captured fresh
  obtain ⟨front, rows, back, hfront, hback, hrows, rfl, rfl⟩ :=
    exists_rows_of_terminated hentry hlast
  obtain ⟨hstatements, hspells⟩ := bodyStatements_rows hfront hback hrows rfl
  rw [← hstatements] at hspells
  have hstores := (forall₂_storesName hspells).1 hcalls
  have hlexed : ∀ b ∈ Row.bodies rows, Lexed b := by
    intro b hb
    obtain ⟨r, hr, -, rfl⟩ := Row.exists_of_mem_bodies hb
    exact (hrows r hr).lexed.left
  have hcaptured : captured = (capturedEntries (Row.bodies rows)).map Prod.fst := by
    refine (map_fst_capturedEntries hspells hlexed fun b hb hb' => ?_).symm
    obtain ⟨n, -, hn⟩ := exists_of_forall₂ hstores.flip (mem_filter.2 ⟨hb, hb'⟩)
    exact ⟨n, hn⟩
  have hidents : ∀ n ∈ captured, IsIdentifier n := by
    intro n hn
    obtain ⟨b, hb, rfl⟩ := mem_map.1 (mem_eraseDups.1 hn)
    obtain ⟨st, -, hb⟩ := mem_flatMap.1 (mem_filter.1 hb).1
    exact isIdentifier_of_mem_bindings hb
  obtain ⟨rows', rows'', hrows', hrows'', hbodies', hbodies'', hstores', hplan, hplan'⟩ :=
    exists_replannedRows hfront hback hrows rfl hstores hdistinct hnil hcaptured hidents rfl
  obtain ⟨hstatements', hspells'⟩ := bodyStatements_rows hfront hback hrows' rfl
  obtain ⟨hstatements'', hspells''⟩ := bodyStatements_rows hfront hback hrows'' rfl
  rw [← hstatements'] at hspells'
  rw [← hstatements''] at hspells''
  have htexts' := Source.texts_of_spells hspells'
  have htexts'' := Source.texts_of_spells hspells''
  have hcall : textOf ∘ callPieces = persistenceCall := funext textOf_callPieces
  rw [hbodies', map_append, map_append, map_map, hcall] at htexts'
  rw [hbodies'', map_append, map_append, map_map, hcall] at htexts''
  have hnodup : captured.Nodup := hcaptured ▸ nodup_firstNamed _
  refine ⟨_, _, _, _, _, _, hplan, rfl, nodup_append_filter hnodup hdistinct,
    Source.texts_of_spells (forall₂_filter_isPersistence hspells not),
    Source.texts_of_spells (forall₂_filter_isPersistence hspells id),
    entryPoint_rows hfront hback hrows' rfl,
    htexts'.trans (congrArg _ (append_assoc ..).symm),
    (forall₂_storesName hspells').2 hstores', ?_, hplan', rfl, rfl,
    entryPoint_rows hfront hback hrows'' rfl,
    htexts''.trans (congrArg _ (append_assoc ..).symm)⟩
  refine (perm_ext_iff_of_nodup (nodup_append_filter hnodup hdistinct)
    (nodup_append_filter hdistinct hnodup)).2 fun n => ?_
  by_cases hc : n ∈ captured <;> by_cases hp : n ∈ persisted <;> simp [hc, hp]

/-- Two calls are there, in front of a semicolon and of a comment, and two names have none. -/
theorem planPersistence_single_sample :
    let program : Text := "package main\n\nfunc main() \x7b\n\tb, _ := f()\n" ++
      "\t_Serialize(\"var-b\", b); nil := 1\n\t_Serialize( \"var-z\", z) // z\n" ++
      "\tg := h\n\x7d\n"
    ∃ entry plan plan' entry' entry'', (Source.ofText program).entryPoint = some entry ∧
      Forall₂ (Source.ofText program).StoresName (((Source.ofText program).bodyStatements
        entry).filter (Source.ofText program).isPersistence) ["b", "z"] ∧
      planPersistence program = .ok (some plan) ∧ plan.names = ["b", "nil", "g", "z"] ∧
      (Source.ofText plan.program).entryPoint = some entry' ∧
      (Source.ofText plan.program).texts
        ((Source.ofText plan.program).bodyStatements entry') =
          .ok ["b, _ := f()", "nil := 1", "g := h", "_Serialize(\"var-b\", b)",
            "_Serialize( \"var-z\", z)", "_Serialize(\"var-nil\", nil)",
            "_Serialize(\"var-g\", g)"] ∧
      planPersistence plan.program = .ok (some plan') ∧ plan'.names = plan.names ∧
      (Source.ofText plan'.program).entryPoint = some entry'' ∧
      (Source.ofText plan'.program).texts
        ((Source.ofText plan'.program).bodyStatements entry'') =
          .ok ["b, _ := f()", "nil := 1", "g := h", "_Serialize(\"var-b\", b)",
            "_Serialize( \"var-z\", z)", "_Serialize(\"var-g\", g)",
            "_Serialize(\"var-nil\", nil)"] := by
  intro program
  let s := Source.ofText program
  let entry : EntryPoint := ⟨7, 38, 27, 113⟩
  let callB : Statement := ⟨16, 21, ⟨42, 64⟩, some 22⟩
  let callZ : Statement := ⟨27, 32, ⟨76, 99⟩, some 33⟩
  obtain ⟨hentry, hlast, hfound, hstoresB, hstoresZ, hcaptured, hothers', hcalls'⟩ :
      s.entryPoint = some entry ∧
      (s.bodyStatements entry).getLast? = some ⟨34, 36, ⟨106, 112⟩, some 37⟩ ∧
      (s.bodyStatements entry).filter s.isPersistence = [callB, callZ] ∧
      s.StoresName callB "b" ∧ s.StoresName callZ "z" ∧
      s.capturedNames entry = ["b", "nil", "g"] ∧
      s.texts ((s.bodyStatements entry).filter fun st => !s.isPersistence st) =
        .ok ["b, _ := f()", "nil := 1", "g := h"] ∧
      s.texts ((s.bodyStatements entry).filter s.isPersistence) =
        .ok ["_Serialize(\"var-b\", b)", "_Serialize( \"var-z\", z)"] := by
    decide +kernel
  have hstores : Forall₂ s.StoresName ((s.bodyStatements entry).filter s.isPersistence)
      ["b", "z"] := by
    rw [hfound]
    exact .cons hstoresB (.cons hstoresZ .nil)
  obtain ⟨plan, plan', entry', entry'', others, calls, hplan, hnames, -, hothers,
    hcalls, hentry', htexts', -, -, hplan', hnames', -, hentry'',
    htexts''⟩ := planPersistence_single hentry
      (fun st hst => by rw [hlast] at hst; cases hst; exact Option.some_ne_none _) hstores
      (by decide) (by decide)
  obtain rfl := Except.ok.inj (hothers.symm.trans hothers')
  obtain rfl := Except.ok.inj (hcalls.symm.trans hcalls')
  rw [hcaptured] at hnames htexts' htexts''
  exact ⟨entry, plan, plan', entry', entry'', hentry, hstores, hplan,
    hnames.trans (by decide), hentry', htexts'.trans (by decide), hplan', hnames', hentry'',
    htexts''.trans (by decide)⟩

/-- A call that stores a name `nil` is moved behind the others by the second plan. -/
theorem not_planned_alike :
    let front : Text := "package main\n\nfunc main() \x7b\n\tnil := 1\n\tb := 2\n"
    let first : Text :=
      front ++ "\t_Serialize(\"var-nil\", nil)\n\t_Serialize(\"var-b\", b)\n\x7d\n"
    let second : Text := front ++
      "\t\n\t\n\t_Serialize(\"var-b\", b)\n\t_Serialize(\"var-nil\", nil)\n\x7d\n"
    let entry : EntryPoint := ⟨7, 30, 27, 98⟩
    let entry' : EntryPoint := ⟨7, 30, 27, 102⟩
    planPersistence (front ++ "\x7d\n") = .ok (some ⟨first, ["nil", "b"], []⟩) ∧
      planPersistence first = .ok (some ⟨second, ["nil", "b"], []⟩) ∧
      (Source.ofText first).entryPoint = some entry ∧
      (Source.ofText first).texts ((Source.ofText first).bodyStatements entry) =
        .ok ["nil := 1", "b := 2", "_Serialize(\"var-nil\", nil)",
          "_Serialize(\"var-b\", b)"] ∧
      (Source.ofText second).entryPoint = some entry' ∧
      (Source.ofText second).texts ((Source.ofText second).bodyStatements entry') =
        .ok ["nil := 1", "b := 2", "_Serialize(\"var-b\", b)",
          "_Serialize(\"var-nil\", nil)"] := by
  intro front first second entry entry'
  let opening := Lexer.pieces "package main\n\nfunc main() \x7b"
  let closing := Lexer.pieces "\x7d\n"
  have hopening : IsOpening opening :=
    ⟨by decide +kernel, ⟨⟨.token (.opening .brace), ['\x7b']⟩, by decide +kernel, rfl⟩,
      ⟨3, by decide +kernel, by decide +kernel⟩⟩
  have hclosing : IsClosing closing :=
    ⟨by decide +kernel,
      ⟨⟨.token (.closing .brace), ['\x7d']⟩, .brace, by decide +kernel, rfl⟩⟩
  have hone : IsWhole "nil := 1" :=
    ⟨by decide +kernel, by decide +kernel, ⟨0, 2, ⟨0, 8⟩, some 3⟩, by decide +kernel⟩
  have htwo : IsWhole "b := 2" :=
    ⟨by decide +kernel, by decide +kernel, ⟨0, 2, ⟨0, 6⟩, some 3⟩, by decide +kernel⟩
  have hchars : ("il" : Text).all isIdentifierChar = true := by decide
  have hnil : IsIdentifier "nil" :=
    ⟨⟨'n', "il", rfl, by decide, all_eq_true.1 hchars⟩, by decide⟩
  have hb : IsIdentifier "b" := ⟨⟨'b', [], rfl, by decide, by simp⟩, by decide⟩
  have hrows : ∀ bs, (∀ b ∈ bs, StandsAlone b) →
      ∀ r ∈ lineEndRow :: lineRows bs, r.Ended := by
    intro bs hbs r hr
    rcases mem_cons.1 hr with rfl | hr
    · exact sound_lineEndRow.ended
    · exact (sound_lineRows hbs r hr).ended
  have hbindings : ∀ b ∈ [Lexer.pieces "nil := 1", Lexer.pieces "b := 2"], StandsAlone b := by
    simp only [forall_mem_cons, not_mem_nil, IsEmpty.forall_iff,
      implies_true, and_true]
    exact ⟨hone.standsAlone, htwo.standsAlone⟩
  have hcalls : ∀ b ∈ [callPieces "nil", callPieces "b"], StandsAlone b := by
    simp only [forall_mem_cons, not_mem_nil, IsEmpty.forall_iff,
      implies_true, and_true]
    exact ⟨standsAlone_callPieces hnil, standsAlone_callPieces hb⟩
  have hplan := planPersistence_rows hopening hclosing (hrows _ hbindings)
  have hplan' := planPersistence_rows hopening hclosing
    (hrows _ (forall_mem_append.2 ⟨hbindings, hcalls⟩))
  refine ⟨?_, ?_, by decide +kernel⟩
  · have htext : textOf (opening ++ (Row.flatten (lineEndRow :: lineRows
        [Lexer.pieces "nil := 1", Lexer.pieces "b := 2"]) ++ closing)) = front ++
          "\x7d\n" := by
      decide +kernel
    rw [← htext, hplan]
    exact congrArg (fun plan => Except.ok (some plan)) (by decide +kernel)
  · have htext : textOf (opening ++ (Row.flatten (lineEndRow :: lineRows
        ([Lexer.pieces "nil := 1", Lexer.pieces "b := 2"] ++
          [callPieces "nil", callPieces "b"])) ++
          closing)) = first := by
      decide +kernel
    rw [← htext, hplan']
    exact congrArg (fun plan => Except.ok (some plan)) (by decide +kernel)

end Notebook
