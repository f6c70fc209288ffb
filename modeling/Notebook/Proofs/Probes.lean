import Notebook.Proofs.TurnSafety

/-!
# What a probe is made of

A probe is a program of its own.  Of the entry function it holds only statements that bring a
value back, each as it is written, a discard for every name that they bind, and one line that
looks at the type of the callee.  The callee is written into that line as it stands in the
program.
-/

namespace Notebook

open List

variable {q : ArityQuery} {s : Source} {st : Statement} {program : Text}

/-- A question that is asked to show the last value of a program. -/
def ArityQuery.AskedFor (q : ArityQuery) (program : Text) : Prop :=
  ∃ plan, DisplayPlan.ofProgram? program = .ok (some plan) ∧ plan.query? = some q

/-! ### Callees -/

namespace Source

/-- Kinds that can stand in a callee outside brackets. -/
def isCalleeKind : TokenKind → Bool
  | .ident | .dot | .keyword .mapKw | .keyword .chanKw | .keyword .funcKw | .op => true
  | _ => false

/-- The tokens of a callee: those in front of the last brackets of a statement.  Without
brackets they are names, dots, words that begin a type, and a star. -/
structure IsCalleeOf (s : Source) (st : Statement) (ts : List Token) (callee : Text) :
    Prop where
  front : ts <+: s.tokensOf st
  text : ∃ span, extent ts = some span ∧ s.slice span = .ok callee
  chain : (∀ t ∈ ts, t.kind.opens = false ∧ t.kind.closes = false) →
    ∀ t ∈ ts, isCalleeKind t.kind = true

/-- Without brackets a callee is a chain of names. -/
theorem isCalleeKind_of_isCallee {front : Bool} {ts : List Token}
    (h : isCallee 0 front ts = true)
    (hno : ∀ t ∈ ts, t.kind.opens = false ∧ t.kind.closes = false) :
    ∀ t ∈ ts, isCalleeKind t.kind = true := by
  induction ts generalizing front with
  | nil => simp
  | cons t ts ih =>
    obtain ⟨⟨hopens, hcloses⟩, hrest⟩ := forall_mem_cons.1 hno
    rw [isCallee] at h
    simp only [hopens, hcloses, Bool.false_eq_true, if_false, Nat.lt_irrefl] at h
    have hkind : isCalleeKind t.kind = true ∧ ∃ front, isCallee 0 front ts = true := by
      split at h
      case h_6 hk => exact ⟨by rw [hk]; rfl, false, (Bool.and_eq_true_iff.1 h).2⟩
      case h_7 => cases h
      all_goals
        rename_i hk
        exact ⟨by rw [hk]; rfl, false, h⟩
    obtain ⟨hk, front, hts⟩ := hkind
    exact forall_mem_cons.2 ⟨hk, ih hts hrest⟩

/-- The callee of a call is what stands before its last brackets. -/
theorem isCalleeOf_of_classify {span : Span} {callee : Text} (h : s.classify st = .call span)
    (hslice : s.slice span = .ok callee) : ∃ ts, s.IsCalleeOf st ts callee := by
  have hspan : calleeSpan (s.tokensOf st) = some span := by
    unfold classify innerKind at h
    split at h
    next k hk =>
      subst h
      exact absurd hk (leadingKind?_ne_call s st span)
    next =>
      simp only at h
      repeat' split at h
      all_goals cases h
      next hcallee => exact hcallee
  simp only [calleeSpan, Option.bind_eq_bind, Option.bind_eq_some_iff] at hspan
  obtain ⟨behind, -, hspan⟩ := hspan
  split at hspan
  next hcallee =>
    exact ⟨_, List.take_prefix _ _, ⟨span, hspan, hslice⟩, isCalleeKind_of_isCallee hcallee⟩
  · cases hspan

end Source

/-! ### Replays -/

namespace Replay

/-- How a statement that brings a value back is recognised: it defines one name, and the text
of the value passes `isFunctionLiteral`, or names whose values begin with the decoding
function. -/
inductive Brings (s : Source) (st : Statement) : Prop where
  | literal (b : Binding) (value : Span) (text : Text) (bindings : s.bindings st = [b])
      (define : b.define = true) (value_eq : b.value = some value)
      (slice : s.slice value = .ok text) (function : isFunctionLiteral text = true)
  | decoding (b : Binding) (rest : List Binding) (rhs : Span) (text : Text)
      (bindings : s.bindings st = b :: rest) (define : b.define = true)
        (value_eq : b.value = none)
      (rhs_eq : b.rhs = some rhs) (slice : s.slice rhs = .ok text)
      (decodes : "_Deserialize[".toList <+: Text.trimStart text)

theorem brings_iff : Brings s st ↔ isReplay s (s.bindings st) = .ok true := by
  constructor
  · rintro (⟨b, value, text, hbindings, hdefine, hvalue, hslice, hfunction⟩ |
      ⟨b, rest, rhs, text, hbindings, hdefine, hvalue, hrhs, hslice, hdecodes⟩)
    · simp [isReplay, hbindings, hdefine, hvalue, hslice, Except.map, hfunction]
    · simpa [isReplay, hbindings, hdefine, hvalue, hrhs, hslice, Except.map] using hdecodes
  · intro hreplays
    unfold isReplay at hreplays
    split at hreplays
    · cases hreplays
    next b rest hbindings =>
      split at hreplays
      · cases hreplays
      next hdefine =>
        have hdefine : b.define = true := by simpa using hdefine
        split at hreplays
        next value hvalue =>
          split at hreplays
          next hrest =>
            obtain ⟨source, hsource, hfunction⟩ := Checked.map_eq_ok.1 hreplays
            have hbindings : s.bindings st = [b] := by
              rw [hbindings, List.isEmpty_iff.1 hrest]
            exact .literal b value source hbindings hdefine hvalue hsource hfunction
          · cases hreplays
        next rhs hvalue hrhs =>
          obtain ⟨source, hsource, hdecodes⟩ := Checked.map_eq_ok.1 hreplays
          exact .decoding b rest rhs source hbindings hdefine hvalue hrhs hsource
            (List.isPrefixOf_iff_prefix.1 hdecodes)
        · cases hreplays

/-- A replay is a statement that brings a value back, with its text and its names. -/
theorem ofStatement?_spec {r : Replay}
    (h : st ∈ s.statements ∧ ofStatement? s st = .ok (some r)) :
    Brings s st ∧ s.statementText st = .ok r.text ∧
      r.names = (s.bindings st).map (·.name) := by
  obtain ⟨hst, h⟩ := h
  rw [ofStatement?_eq (Source.standsIn_of_mem hst).1] at h
  obtain ⟨replays, hreplays, h⟩ := Checked.bind_eq_ok.1 h
  split at h
  next htrue =>
    subst htrue
    obtain ⟨text, htext, h⟩ := Checked.bind_eq_ok.1 h
    cases h
    exact ⟨brings_iff.2 hreplays, htext, rfl⟩
  · cases h

/-- All members of a list, by their places. -/
theorem filterMap_range_getElem? {α : Type} (xs : List α) :
    (List.range xs.length).filterMap (xs[·]?) = xs := by
  induction xs with
  | nil => rfl
  | cons x xs ih =>
    rw [length_cons, range_succ_eq_map, filterMap_cons, filterMap_map]
    simpa [Function.comp_def] using ih

/-- The replays that a name depends on are some of all replays, in their order. -/
theorem closure_sublist (replays : List Replay) (name? : Option Text) :
    (closure replays name?).Sublist replays := by
  rw [closure]
  refine Sublist.trans (Sublist.filterMap _ filter_sublist) ?_
  rw [filterMap_range_getElem?]

end Replay

namespace ArityQuery

/-- The end of a probe: the line that looks at the callee, and the closing brace. -/
def probeEnd (callee : Text) : Text :=
  "\tfmt.Println(\"" ++ probeMarker ++ "\", reflect.TypeOf(" ++ callee ++
    ").NumOut())\n\x7d\n"

/-- The text of a probe from its parts: the front of the program, the statements that are
copied with the names that they bind, and the callee. -/
def probeText (front : Text) (texts names : List Text) (callee : Text) : Text :=
  front ++ "\n" ++ (texts.flatMap fun text => bodyLine (Text.trim text)) ++
    (names.filter (· != blankName)).flatMap discardLine ++ probeEnd callee

theorem probeProgram_eq {replays : List Replay} {front : Text}
    (hreplays : q.replays = .ok replays)
    (hfront : Span.slice ⟨0, q.bodyStart⟩ q.program = .ok front) :
    q.probeProgram = .ok (probeText front ((Replay.closure replays q.head?).map (·.text))
      ((Replay.closure replays q.head?).flatMap (·.names)) q.callee.trim) := by
  simp only [probeProgram, hreplays, hfront, bind, Except.bind]
  unfold probeText probeEnd
  rw [flatMap_map]
  simp only [append_assoc]
  rfl

theorem askedFor_of_query
    (h : (DisplayPlan.ofProgram? program).toOption.join.map (·.query?) = some (some q)) :
    q.AskedFor program := by
  unfold AskedFor
  cases hplan : DisplayPlan.ofProgram? program with
  | error e =>
    rw [hplan] at h
    cases h
  | ok plan? =>
    rw [hplan] at h
    cases plan? with
    | none => cases h
    | some plan => exact ⟨plan, rfl, Option.some.inj h⟩

/-- A question is about a call that the entry function of its program makes, and its callee is
what is called. -/
theorem exists_call_of_askedFor (h : q.AskedFor program) :
    ∃ entry st ts, q.program = program ∧ (Source.ofText program).entryPoint = some entry ∧
      st ∈ (Source.ofText program).bodyStatements entry ∧ q.bodyStart = entry.bodyStart ∧
      q.statementStart = st.span.start ∧ (Source.ofText program).IsCalleeOf st ts
        q.callee := by
  obtain ⟨plan, hplan, hquery⟩ := h
  rw [DisplayPlan.ofProgram?_eq] at hplan
  simp only at hplan
  split at hplan
  next mark lineStart entry hmark hentry =>
    cases hmarked :
      DisplayPlan.markedStatement ((Source.ofText program).bodyStatements entry) mark
        lineStart with
    | none =>
      rw [hmarked] at hplan
      cases hplan
      cases hquery
    | some st =>
      rw [hmarked] at hplan
      obtain ⟨need, hneed, hplan⟩ := Checked.bind_eq_ok.1 hplan
      cases hplan
      obtain rfl : need = .ifResults q := by
        cases need with
        | ifResults q' => exact congrArg _ (Option.some.inj hquery)
        | never => cases hquery
        | always => cases hquery
      have hmem := DisplayPlan.mem_of_markedStatement hmarked
      rw [DisplayPlan.needOf_eq (Source.standsIn_of_mem hmem).1] at hneed
      split at hneed
      · cases hneed
      next span hclass =>
        obtain ⟨callee, hcallee, hneed⟩ := Checked.bind_eq_ok.1 hneed
        cases hneed
        obtain ⟨ts, hts⟩ := Source.isCalleeOf_of_classify hclass hcallee
        exact ⟨entry, st, ts, rfl, hentry, hmem, rfl, rfl, hts⟩
      · cases hneed
  · cases hplan

/-- What a probe is made of: the program up to the body of its entry function; of the
statements before the call some that bring a value back, in their order and as they are
written; a discard for each name that they bind; and one line that looks at the callee, which
is what the call calls. -/
theorem exists_parts_of_askedFor (h : q.AskedFor program) :
    ∃ front before copied texts, Span.slice ⟨0, q.bodyStart⟩ program = .ok front ∧
      q.preceding = .ok before ∧ copied.Sublist (Source.ofText before).statements ∧
      (∀ st ∈ copied, Replay.Brings (.ofText before) st) ∧
      Forall₂ (fun st text => (Source.ofText before).statementText st = .ok text)
        copied texts ∧
      q.probeProgram = .ok (probeText front texts
        (copied.flatMap fun st => ((Source.ofText before).bindings st).map (·.name))
        q.callee.trim) ∧
      ∃ entry st ts, (Source.ofText program).entryPoint = some entry ∧
        st ∈ (Source.ofText program).bodyStatements entry ∧ q.statementStart = st.span.start ∧
        (Source.ofText program).IsCalleeOf st ts q.callee := by
  obtain ⟨entry, st, ts, hprogram, hentry, hst, hstart, hstatement, hcallee⟩ :=
    exists_call_of_askedFor h
  subst hprogram
  have hplaced : q.Placed := by
    rw [Placed, hstart, hstatement]
    exact ⟨(Source.body_bounds hentry hst).1, (Source.isBoundary_body hentry).1,
      (Source.fits_of_standsIn (Source.standsIn_of_mem hst).1).start⟩
  obtain ⟨front, hfront⟩ : ∃ front, Span.slice ⟨0, q.bodyStart⟩ q.program = .ok front :=
    Span.Fits.slice ⟨Nat.zero_le _, Text.isBoundary_zero _, hplaced.start⟩
  obtain ⟨before, hbefore⟩ := preceding_ok hplaced
  obtain ⟨os, hos⟩ : ∃ os, (Source.ofText before).statements.mapM
      (Replay.ofStatement? (.ofText before)) = .ok os :=
    Checked.mapM_ok fun st hst => Replay.ofStatement?_ok (Source.standsIn_of_mem hst).1
  have hfound : q.replays = .ok (os.filterMap id) := by
    simp only [replays_eq_mapM, hbefore, hos, bind, Except.bind]
    rfl
  have hprobe := probeProgram_eq hfound hfront
  -- The replays that are copied are some of those that the statements before the call are.
  have hneeded := Replay.closure_sublist (os.filterMap id) q.head?
  generalize Replay.closure (os.filterMap id) q.head? = needed at hprobe hneeded
  obtain ⟨copied, hcopied, hreplays⟩ := Checked.exists_sublist_of_mapM hos hneeded
  have htexts :
    Forall₂ (fun st text => (Source.ofText before).statementText st = .ok text)
      copied (needed.map (·.text)) :=
    forall₂_map_right_iff.2
      (hreplays.imp fun _ _ hr => (Replay.ofStatement?_spec hr).2.1)
  have hnames : needed.flatMap (·.names) =
      copied.flatMap fun st => ((Source.ofText before).bindings st).map (·.name) := by
    clear htexts hcopied hneeded hprobe
    induction hreplays with
    | nil => rfl
    | cons hr _ ih =>
      rw [flatMap_cons, flatMap_cons, ih, (Replay.ofStatement?_spec hr).2.2]
  refine ⟨front, before, copied, needed.map (·.text), hfront, hbefore, hcopied, ?_, htexts,
    hnames ▸ hprobe, entry, st, ts, hentry, hst, hstatement, hcallee⟩
  intro st hst
  obtain ⟨r, -, hr⟩ := exists_of_forall₂ hreplays.flip hst
  exact (Replay.ofStatement?_spec hr).1

end ArityQuery

end Notebook
