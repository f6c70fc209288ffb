import Notebook.Proofs.Operands

/-!
# Signatures and the results they declare

A function has parameters in parentheses, a result part and a body in braces.  The result part
begins behind the parenthesis that closes the parameters.  What stands in brackets does not
matter as long as it is balanced, so function types with commas and brackets of their own do
not get in the way.  The result part is nothing, one type, or a list in parentheses, and only
the list is looked into: its groups are what stands between its commas.

The tokens of a source are compared with a wording, which says of each token what it is and
how it is spelled, but not where it stands.

## Main statements

* `Source.ReadsAt.matching`: the bracket that closes a group
* `Source.ReadsAt.resultCount`: the results that are declared in front of a body
* `Source.ReadsAt.signature`: where they are looked for
-/

namespace Notebook

open List

variable {ts : List Token} {ks : List TokenKind} {d depth : Nat}

/-- Tokens by kind and spelling. -/
abbrev Wording := List (TokenKind × Text)

theorem Token.map_fst_map_content (ts : List Token) :
    (ts.map Token.content).map Prod.fst = ts.map Token.kind :=
  map_map

/-! ### Kinds outside brackets -/

/-- Tokens of given kinds. -/
def placeholders (ks : List TokenKind) : List Token :=
  ks.map fun k => ⟨k, [], .start⟩

theorem map_kind_placeholders (ks : List TokenKind) :
    (placeholders ks).map Token.kind = ks := by
  rw [placeholders, map_map]
  exact map_id ks

namespace Source

/-- The kinds that stand outside brackets. -/
def outsideKinds (depth : Nat) : List TokenKind → List TokenKind
  | [] => []
  | k :: ks =>
    let before := if k.closes then depth - 1 else depth
    let behind := if k.opens then before + 1 else before
    if before = 0 then k :: outsideKinds behind ks else outsideKinds behind ks

theorem map_kind_topLevel (depth : Nat) (ts : List Token) :
    (topLevel depth ts).map Token.kind = outsideKinds depth (ts.map Token.kind) := by
  induction ts generalizing depth with
  | nil => rfl
  | cons t ts ih =>
    rw [topLevel, map_cons, outsideKinds, ← ih, apply_ite (List.map Token.kind)]
    rfl

theorem kind_mem_outsideKinds {t : Token} (h : t ∈ topLevel depth ts) :
    t.kind ∈ outsideKinds depth (ts.map Token.kind) := by
  rw [← map_kind_topLevel]
  exact mem_map_of_mem h

theorem outsideKinds_append (h : nest depth ks = some d) (ls : List TokenKind) :
    outsideKinds depth (ks ++ ls) = outsideKinds depth ks ++ outsideKinds d ls := by
  have hks : nest depth ((placeholders ks).map Token.kind) = some d := by
    rwa [map_kind_placeholders]
  have htop := congrArg (List.map Token.kind) (topLevel_append hks (placeholders ls))
  rwa [map_append, map_kind_topLevel, map_kind_topLevel, map_kind_topLevel,
    map_append, map_kind_placeholders, map_kind_placeholders] at htop

end Source

/-! ### What a function is written with -/

namespace Bracket

/-- How an opening bracket is written. -/
def openMark : Bracket → Text
  | paren => ['(']
  | square => ['[']
  | brace => ['\x7b']

/-- How a closing bracket is written. -/
def closeMark : Bracket → Text
  | paren => [')']
  | square => [']']
  | brace => ['\x7d']

end Bracket

/-- Balanced tokens, such as stand between brackets. -/
structure Enclosed where
  tokens : Wording
  balanced : nest 0 (tokens.map Prod.fst) = some 0

/-- The tokens with brackets around them. -/
def Enclosed.within (e : Enclosed) (b : Bracket) : Wording :=
  (.opening b, b.openMark) :: (e.tokens ++ [(.closing b, b.closeMark)])

/-- The kinds of tokens with which a type begins that stands without parentheses: a name, the
star of a pointer, the bracket of a slice or an array, the arrow of a channel, and some
reserved words. -/
def TokenKind.beginsType : TokenKind → Bool
  | ident | op | opening .square | arrow => true
  | keyword k => k ∈ [.funcKw, .mapKw, .chanKw, .structKw, .interfaceKw]
  | _ => false

/-- A type without parentheses around it.  Commas and semicolons stand in its brackets. -/
structure SingleType extends Enclosed where
  begins : (tokens.head?.any fun c => c.1.beginsType) = true
  single : .comma ∉ Source.outsideKinds 0 (tokens.map Prod.fst)
  unended : .semi ∉ Source.outsideKinds 0 (tokens.map Prod.fst)

/-- One group of a result list: a type, with a name in front of it or not. -/
structure ResultGroup extends Enclosed where
  nonempty : tokens ≠ []
  single : .comma ∉ Source.outsideKinds 0 (tokens.map Prod.fst)

/-- What stands between the parameters of a function and its body. -/
inductive ResultPart where
  | none
  | single (type : SingleType)
  /-- Groups in parentheses with commas between them, and perhaps one behind the last. -/
  | list (groups : List ResultGroup) (trailing : Bool)

namespace ResultPart

/-- The number of results. -/
def count : ResultPart → Nat
  | none => 0
  | single _ => 1
  | list groups _ => groups.length

/-- A comma, if there is one. -/
def commaTokens (trailing : Bool) : Wording :=
  if trailing then [(.comma, [','])] else []

/-- Groups with commas between them, and perhaps one behind the last. -/
def listTokens (trailing : Bool) : List ResultGroup → Wording
  | [] => commaTokens trailing
  | [g] => g.tokens ++ commaTokens trailing
  | g :: gs => g.tokens ++ (.comma, [',']) :: listTokens trailing gs

theorem nest_commaTokens (trailing : Bool) :
    nest 0 ((commaTokens trailing).map Prod.fst) = some 0 := by
  cases trailing <;> rfl

theorem nest_listTokens (trailing : Bool) (groups : List ResultGroup) :
    nest 0 ((listTokens trailing groups).map Prod.fst) = some 0 := by
  induction groups with
  | nil => exact nest_commaTokens trailing
  | cons g gs ih =>
    cases gs with
    | nil =>
      rw [listTokens, map_append, nest_append, g.balanced]
      exact nest_commaTokens trailing
    | cons g' gs =>
      rw [listTokens, map_append, nest_append, g.balanced]
      · exact ih
      · exact cons_ne_nil g' gs

/-- The tokens of a result part. -/
def tokens : ResultPart → Wording
  | none => []
  | single type => type.tokens
  | list groups trailing =>
    Enclosed.within ⟨listTokens trailing groups, nest_listTokens trailing groups⟩ .paren

end ResultPart

/-- A function from its parameters on. -/
structure Signature where
  params : Enclosed
  results : ResultPart
  body : Enclosed

/-- The tokens of a function from its parameters on: `(params) results {body}`. -/
def Signature.tokens (f : Signature) : Wording :=
  f.params.within .paren ++ (f.results.tokens ++ f.body.within .brace)

/-- The reserved word with which functions begin. -/
def funcToken : TokenKind × Text :=
  (.keyword .funcKw, "func".toList)

/-! ### Kinds of a function -/

theorem nest_add (h : nest depth ks = some d) (n : Nat) :
    nest (depth + n) ks = some (d + n) := by
  induction ks generalizing depth with
  | nil =>
    cases h
    rfl
  | cons k ks ih =>
    rw [nest_cons] at h
    obtain ⟨e, he, hks⟩ := Option.bind_eq_some_iff.1 h
    rw [nest_cons, nestStep_add he]
    exact ih hks

theorem Enclosed.nest_within (e : Enclosed) (b : Bracket) :
    nest 0 ((e.within b).map Prod.fst) = some 0 := by
  have hopen : nestStep 0 (.opening b) = some 1 := rfl
  rw [within, map_cons, nest_cons, hopen, Option.bind_some, map_append, nest_append,
    nest_add e.balanced 1]
  rfl

namespace Source

/-- Of a group only the brackets are outside brackets. -/
theorem outsideKinds_within (e : Enclosed) (b : Bracket) :
    outsideKinds 0 ((e.within b).map Prod.fst) = [.opening b, .closing b] := by
  have hnest : nest 0 ((placeholders (e.tokens.map Prod.fst)).map Token.kind) = some 0 := by
    rw [map_kind_placeholders]
    exact e.balanced
  have hkinds := congrArg (List.map Token.kind)
    (topLevel_of_nest hnest : _ = topLevel 1 (placeholders [.closing b]))
  rw [map_kind_topLevel, map_kind_topLevel, map_append, map_kind_placeholders,
    map_kind_placeholders] at hkinds
  rw [Enclosed.within, map_cons, map_append]
  exact congrArg (TokenKind.opening b :: ·) hkinds

/-- Outside the brackets of a function stand these and what its results have outside
brackets. -/
theorem outsideKinds_function (params : Enclosed) (w : Wording) :
    outsideKinds 0 ((funcToken :: (params.within .paren ++ w)).map Prod.fst) =
      [.keyword .funcKw, .opening .paren, .closing .paren] ++
        outsideKinds 0 (w.map Prod.fst) := by
  have hfront : outsideKinds 0 ((funcToken :: (params.within .paren ++ w)).map Prod.fst) =
      .keyword .funcKw :: outsideKinds 0 ((params.within .paren ++ w).map Prod.fst) := rfl
  rw [hfront, map_append, outsideKinds_append (params.nest_within .paren),
    outsideKinds_within]
  rfl

end Source

theorem ResultPart.nest_tokens (p : ResultPart) :
    nest 0 (p.tokens.map Prod.fst) = some 0 := by
  cases p with
  | none => rfl
  | single type => exact type.balanced
  | list groups trailing => exact Enclosed.nest_within _ .paren

/-- Outside the brackets of a result part stand neither commas nor semicolons. -/
theorem ResultPart.single_tokens (p : ResultPart) :
    .comma ∉ Source.outsideKinds 0 (p.tokens.map Prod.fst) ∧
      .semi ∉ Source.outsideKinds 0 (p.tokens.map Prod.fst) := by
  cases p with
  | none => exact ⟨not_mem_nil, not_mem_nil⟩
  | single type => exact ⟨type.single, type.unended⟩
  | list groups trailing =>
    rw [tokens, Source.outsideKinds_within]
    simp

/-! ### Wordings in a source -/

namespace Source

/-- The tokens from a number on begin with the given ones. -/
def ReadsAt (s : Source) (i : Nat) (w : Wording) : Prop :=
  w <+: (s.tokens.drop i).map Token.content

variable {s : Source} {i : Nat}

theorem readsAt_append {v w : Wording} :
    s.ReadsAt i (v ++ w) ↔ s.ReadsAt i v ∧ s.ReadsAt (i + v.length) w := by
  have hbehind : (s.tokens.drop (i + v.length)).map Token.content =
      ((s.tokens.drop i).map Token.content).drop v.length := by
    rw [← drop_drop, map_drop]
  unfold ReadsAt
  rw [hbehind]
  constructor
  · intro h
    refine ⟨(prefix_append v w).trans h, ?_⟩
    obtain ⟨rest, hrest⟩ := h
    rw [← hrest, append_assoc, drop_left]
    exact prefix_append w rest
  · rintro ⟨⟨rest, hrest⟩, hw⟩
    rw [← hrest, drop_left] at hw
    rw [← hrest]
    exact (prefix_append_right_inj v).2 hw

section

variable {c : TokenKind × Text} {w : Wording} (h : s.ReadsAt i (c :: w))
include h

theorem ReadsAt.exists_token : ∃ t, s.tokens[i]? = some t ∧ t.content = c := by
  obtain ⟨rest, hrest⟩ := h
  obtain ⟨t, ts, htokens, ht, -⟩ := map_eq_cons_iff.1 hrest.symm
  refine ⟨t, ?_, ht⟩
  rw [← head?_drop, htokens]
  rfl

theorem ReadsAt.kindAt : s.kindAt i = c.1 := by
  obtain ⟨t, ht, rfl⟩ := h.exists_token
  rw [Source.kindAt, ht]
  rfl

theorem ReadsAt.tail : s.ReadsAt (i + 1) w :=
  (readsAt_append.1 (show s.ReadsAt i ([c] ++ w) from h)).2

end

/-- The tokens between two numbers. -/
theorem ReadsAt.map_segment {w : Wording} (h : s.ReadsAt i w) {last : Nat}
    (hlast : last + 1 = i + w.length) : (s.segment i last).map Token.content = w := by
  have hlength : last + 1 - i = w.length := by omega
  rw [segment, hlength, map_take]
  exact (prefix_iff_eq_take.1 h).symm

/-- The bracket that closes a group. -/
theorem ReadsAt.matching {e : Enclosed} {b : Bracket} (h : s.ReadsAt i (e.within b)) :
    s.matching i = some (i + e.tokens.length + 1) := by
  obtain ⟨rest, hrest⟩ := h
  obtain ⟨o, ts, htokens, ho, hts⟩ := map_eq_cons_iff.1 hrest.symm
  obtain ⟨us, ts, rfl, hus, hts⟩ :=
    map_eq_append_iff.1 (hts.trans (append_assoc ..))
  obtain ⟨c, ts, rfl, hc, -⟩ := map_eq_cons_iff.1 hts
  have hopen : o.kind = .opening b := congrArg Prod.fst ho
  have hclose : c.kind = .closing b := congrArg Prod.fst hc
  have hnest : nest 0 (us.map Token.kind) = some 0 := by
    rw [← Token.map_fst_map_content, hus]
    exact e.balanced
  have hindex : closingIndex 1 (us ++ c :: ts) = some us.length := by
    rw [closingIndex_append hnest, closingIndex, hclose]
    simp [TokenKind.closes]
  have hdepth : depthAfter 0 (.opening b) = 1 := rfl
  have hlength : us.length = e.tokens.length := by rw [← hus, length_map]
  rw [Source.matching, htokens, closingIndex, hopen, hdepth, hindex, hlength]
  simp only [TokenKind.closes, Bool.false_and, Bool.false_eq_true, if_false, Option.map_some,
    Option.some.injEq]
  omega

end Source

/-! ### Counting results -/

namespace ResultGroup

/-- The tokens of a group that stands between commas. -/
theorem of_map_content {g : ResultGroup} (h : ts.map Token.content = g.tokens) :
    ts ≠ [] ∧ nest 0 (ts.map Token.kind) = some 0 ∧ ∀ t ∈ Source.topLevel 0 ts,
      t.kind ≠ .comma := by
  have hkinds : ts.map Token.kind = g.tokens.map Prod.fst := by
    rw [← Token.map_fst_map_content, h]
  refine ⟨?_, hkinds ▸ g.balanced, fun t ht hcomma => g.single ?_⟩
  · rintro rfl
    exact g.nonempty h.symm
  · rw [← hkinds, ← hcomma]
    exact Source.kind_mem_outsideKinds ht

end ResultGroup

namespace Source

variable {s : Source} {i : Nat}

theorem commaParts_append {us : List Token} {comma : Token} (hne : ts ≠ [])
    (h : nest 0 (ts.map Token.kind) = some 0) (hsingle : ∀ t ∈ topLevel 0 ts, t.kind ≠ .comma)
    (hcomma : comma.kind = .comma) :
    commaParts (ts ++ comma :: us) = ts :: commaParts us := by
  rw [commaParts, cutCommas_append h hsingle hcomma,
    filter_cons_of_pos (by simpa using hne)]
  rfl

/-- The groups of a list are what stands between its commas.  A comma behind the last group
leaves an empty part, which does not count. -/
theorem length_commaParts {groups : List ResultGroup} {trailing : Bool}
    (h : ts.map Token.content = ResultPart.listTokens trailing groups) :
    (commaParts ts).length = groups.length := by
  induction groups generalizing ts with
  | nil =>
    cases trailing with
    | false =>
      obtain rfl := map_eq_nil_iff.1 h
      rfl
    | true =>
      obtain ⟨c, ts, rfl, hc, hts⟩ := map_eq_cons_iff.1 h
      obtain rfl := map_eq_nil_iff.1 hts
      have hcomma : c.kind = .comma := congrArg Prod.fst hc
      simp [commaParts, cutCommas, hcomma]
  | cons g gs ih =>
    cases gs with
    | nil =>
      obtain ⟨us, vs, rfl, hus, hvs⟩ := map_eq_append_iff.1 h
      obtain ⟨hne, hnest, hsingle⟩ := ResultGroup.of_map_content hus
      cases trailing with
      | false =>
        obtain rfl := map_eq_nil_iff.1 hvs
        rw [append_nil, commaParts_eq hsingle hne]
        rfl
      | true =>
        obtain ⟨c, vs, rfl, hc, hvs⟩ := map_eq_cons_iff.1 hvs
        obtain rfl := map_eq_nil_iff.1 hvs
        rw [commaParts_append hne hnest hsingle (congrArg Prod.fst hc)]
        rfl
    | cons g' gs =>
      obtain ⟨us, vs, rfl, hus, hvs⟩ := map_eq_append_iff.1 h
      obtain ⟨hne, hnest, hsingle⟩ := ResultGroup.of_map_content hus
      obtain ⟨c, vs, rfl, hc, hvs⟩ := map_eq_cons_iff.1 hvs
      rw [commaParts_append hne hnest hsingle (congrArg Prod.fst hc),
        length_cons, ih hvs]
      rfl

theorem resultCount_of_beginsType (h : (s.kindAt i).beginsType = true) :
    s.resultCount i = 1 := by
  unfold resultCount
  split <;> simp_all [TokenKind.beginsType]

/-- The results are counted between the parameters and the body. -/
theorem ReadsAt.resultCount {p : ResultPart} {body : Enclosed}
    (h : s.ReadsAt i (p.tokens ++ body.within .brace)) : s.resultCount i = p.count := by
  cases p with
  | none =>
    have hbrace : s.kindAt i = .opening .brace := ReadsAt.kindAt h
    rw [Source.resultCount, hbrace]
    rfl
  | single type =>
    refine resultCount_of_beginsType ?_
    obtain ⟨c, w, hw, hc⟩ : ∃ c w, type.tokens = c :: w ∧ c.1.beginsType = true := by
      have hbegins := type.begins
      cases htokens : type.tokens with
      | nil =>
        rw [htokens] at hbegins
        cases hbegins
      | cons c w =>
        rw [htokens] at hbegins
        exact ⟨c, w, rfl, hbegins⟩
    have hread : s.ReadsAt i (c :: w) := hw ▸ (readsAt_append.1 h).1
    rw [hread.kindAt]
    exact hc
  | list groups trailing =>
    have hread := (readsAt_append.1 h).1
    have hparen : s.kindAt i = .opening .paren := ReadsAt.kindAt hread
    rw [Source.resultCount, hparen]
    simp only [ReadsAt.matching hread]
    split
    next hempty =>
      -- Nothing stands between the parentheses.
      have hnil : ResultPart.listTokens trailing groups = [] :=
        eq_nil_of_length_eq_zero (by omega)
      have hnone : (commaParts []).length = groups.length := length_commaParts hnil.symm
      exact hnone
    next hne =>
      have hinside : s.ReadsAt (i + 1) (ResultPart.listTokens trailing groups) :=
        (readsAt_append.1 (ReadsAt.tail hread)).1
      have hlast : i + (ResultPart.listTokens trailing groups).length + 1 - 1 + 1 =
          i + 1 + (ResultPart.listTokens trailing groups).length := by omega
      exact length_commaParts (hinside.map_segment hlast)

/-- The results are counted behind the parenthesis that closes the parameters. -/
theorem ReadsAt.signature {f : Signature} (h : s.ReadsAt i f.tokens) :
    s.kindAt i = .opening .paren ∧
      ∃ close, s.matching i = some close ∧ s.resultCount (close + 1) = f.results.count := by
  obtain ⟨hparams, hbehind⟩ := readsAt_append.1 h
  have hlength : i + (f.params.within .paren).length = i +
      f.params.tokens.length + 1 + 1 := by
    simp [Enclosed.within, Nat.add_assoc]
  rw [hlength] at hbehind
  exact ⟨ReadsAt.kindAt hparams, _, hparams.matching, hbehind.resultCount⟩

end Source

end Notebook
