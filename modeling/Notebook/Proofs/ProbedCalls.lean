import Notebook.Proofs.ReplayClosure

/-!
# Calls that a probe makes

A probe runs beside the turn that asks for it, so what it calls is called once more.  This
module says with tokens which calls those are.

`CallWalk` walks over the tokens of a statement and finds the brackets that open the arguments
of a call when the statement is run.  The parameters, results and bodies of functions are not
run with it, and the call of `_Deserialize` itself is not one that an input makes.

Of a statement that a probe copies only the outermost tokens are looked at
(`Replay.CopiedTokens`).  If its value is a function literal whose last brace closes its own
body, or one decoding call without a parenthesis in its arguments (`IsRestoring`), it makes no
call; if the literal is called where it stands (`IsInvoking`), the probe calls it.  The callee
is written into the probe as it stands, and makes no call if there is no parenthesis in it.

## Main statements

* `CallWalk.calls_restoring`, `CallWalk.calls_invoking`: the calls of such statements
* `Replay.Brings.copiedTokens`: the tokens of a statement that brings a value back
* `ArityQuery.probeProgram_copies`: the parts of a probe, and when they make no call
* `ArityQuery.probe_calls`: probes that make a call of the input
-/

namespace Notebook

open Lexer List

variable {signature : Bool} {r : Replay} {st : Statement} {name t : Text}

/-! ### Calls among tokens -/

/-- What stands in front of a token, as far as it decides what a bracket there is for. -/
inductive Behind where
  /-- Nothing, an opening bracket or a sign: a bracket groups. -/
  | absent
  /-- The end of a value: a parenthesis calls it. -/
  | value
  /-- A word behind which the fields or methods of a type stand in braces. -/
  | fields
  /-- The name of the decoding function. -/
  | decoder
  /-- The decoding function with the type that it decodes. -/
  | decoding
deriving DecidableEq, Repr

/-- The words and signs of which a type is written, names and brackets aside. -/
def Token.writesType (t : Token) : Bool :=
  match t.kind with
  | .dot | .arrow | .keyword .mapKw | .keyword .chanKw => true
  | .op => t.lexeme == "*"
  | _ => false

/-- How far a walk over tokens has come that looks for calls. -/
structure CallWalk where
  /-- How many brackets are open of a signature, a function body or the type of a decoding
  call.  What stands in them is not evaluated with the statement. -/
  quiet : Nat
  /-- Whether the signature of a function is being read, up to its body. -/
  signature : Bool
  behind : Behind
deriving DecidableEq, Repr

namespace CallWalk

def start : CallWalk := ⟨0, false, .absent⟩

/-- The walk behind one more token. -/
def step (w : CallWalk) (t : Token) : CallWalk :=
  if 0 < w.quiet then { w with quiet := Source.depthAfter w.quiet t.kind }
  else
    match t.kind with
    | .opening b =>
      if w.signature then
        -- A brace opens the body, unless it holds the fields of a result.
        ⟨1, b != .brace || w.behind == .fields, .value⟩
      else if b = .square ∧ w.behind = .decoder then ⟨1, false, .decoding⟩
      else ⟨0, false, .absent⟩
    | .closing _ => ⟨0, false, .value⟩
    | .keyword .funcKw => ⟨0, true, .absent⟩
    | .keyword .structKw | .keyword .interfaceKw => ⟨0, w.signature, .fields⟩
    | .ident => ⟨0, w.signature, if t.isIdent "_Deserialize" then .decoder else .value⟩
    | .int | .float | .imag | .char | .str | .rawStr => ⟨0, false, .value⟩
    | _ => ⟨0, w.signature && t.writesType, .absent⟩

/-- Whether a token opens the arguments of a call.  The call of the decoding function with its
type is not counted, but those in its arguments are. -/
def isCall (w : CallWalk) (t : Token) : Bool :=
  w.quiet == 0 && !w.signature && t.kind == .opening .paren &&
    (w.behind == .value || w.behind == .decoder)

/-- The brackets among tokens that open the arguments of a call. -/
def calls (w : CallWalk) : List Token → List Token
  | [] => []
  | t :: ts => if w.isCall t then t :: (w.step t).calls ts else (w.step t).calls ts

/-- A walk from one state to another that meets no call. -/
structure Passes (w : CallWalk) (ts : List Token) (w' : CallWalk) : Prop where
  walk : ts.foldl step w = w'
  silent : w.calls ts = []

variable {w w' w'' : CallWalk} {ts us : List Token} {t : Token}

theorem calls_append (w : CallWalk) (ts us : List Token) :
    w.calls (ts ++ us) = w.calls ts ++ (ts.foldl step w).calls us := by
  induction ts generalizing w with
  | nil => rfl
  | cons t ts ih =>
    rw [cons_append, calls, calls, foldl_cons, ih]
    split <;> rfl

theorem Passes.calls_append (h : Passes w ts w') (us : List Token) :
    w.calls (ts ++ us) = w'.calls us := by
  rw [CallWalk.calls_append, h.silent, h.walk, nil_append]

theorem Passes.nil (w : CallWalk) : Passes w [] w :=
  ⟨rfl, rfl⟩

theorem Passes.append (h : Passes w ts w') (h' : Passes w' us w'') :
    Passes w (ts ++ us) w'' where
  walk := by rw [foldl_append, h.walk, h'.walk]
  silent := by rw [h.calls_append, h'.silent]

theorem Passes.cons (hcall : w.isCall t = false) (h : Passes (w.step t) ts w') :
    Passes w (t :: ts) w' where
  walk := h.walk
  silent := by rw [calls, hcall, h.silent]; rfl

/-- Only a parenthesis can open the arguments of a call. -/
theorem isCall_eq_false (h : t.kind ≠ .opening .paren) : w.isCall t = false := by
  simp [isCall, h]

theorem calls_eq_nil (h : ∀ t ∈ ts, t.kind ≠ .opening .paren) : w.calls ts = [] := by
  induction ts generalizing w with
  | nil => rfl
  | cons t ts ih =>
    obtain ⟨ht, hts⟩ := forall_mem_cons.1 h
    rw [calls, isCall_eq_false ht, ih hts]
    rfl

theorem step_ident (hw : w.quiet = 0) (ht : t.kind = .ident) :
    w.step t = ⟨0, w.signature, if t.isIdent "_Deserialize" then .decoder else .value⟩ := by
  rw [step, if_neg (by omega), ht]

theorem step_function (hw : w.quiet = 0) (ht : t.kind = .keyword .funcKw) :
    w.step t = ⟨0, true, .absent⟩ := by
  rw [step, if_neg (by omega), ht]

theorem step_sign (hw : w.quiet = 0) (ht : t.kind = .define ∨ t.kind = .assign) :
    w.step t = ⟨0, false, .absent⟩ := by
  have hwrites : t.writesType = false := by
    unfold Token.writesType
    rcases ht with ht | ht <;> rw [ht]
  rw [step, if_neg (by omega)]
  rcases ht with ht | ht <;> simp only [ht, hwrites, Bool.and_false]

/-- Only brackets are quiet. -/
theorem quiet_step (hw : w.quiet = 0) (ht : t.kind.opens = false) : (w.step t).quiet = 0 := by
  rw [step, if_neg (by omega)]
  split
  next hk =>
    rw [hk] at ht
    cases ht
  all_goals rfl

theorem step_writesType (hw : w.quiet = 0) (ht : t.writesType = true) :
    w.step t = ⟨0, w.signature, .absent⟩ := by
  have hwrites := ht
  unfold Token.writesType at ht
  rw [step, if_neg (by omega)]
  split at ht
  case h_6 => cases ht
  all_goals
    rename_i hk
    simp only [hk, hwrites, Bool.and_true]

/-! ### Functions and what they are written with -/

/-- In quiet brackets the walk counts the brackets and meets no call. -/
theorem passes_quiet {behind : Behind} {m n : Nat} (h : nest m (ts.map Token.kind) = some n) :
    Passes ⟨m + 1, signature, behind⟩ ts ⟨n + 1, signature, behind⟩ := by
  induction ts generalizing m with
  | nil =>
    cases h
    exact .nil _
  | cons t ts ih =>
    rw [map_cons, nest_cons] at h
    obtain ⟨d, hd, hts⟩ := Option.bind_eq_some_iff.1 h
    have hdepth : Source.depthAfter (m + 1) t.kind = d + 1 :=
      depthAfter_of_nestStep (nestStep_add hd 1)
    have hstep : step ⟨m + 1, signature, behind⟩ t = ⟨d + 1, signature, behind⟩ := by
      rw [step, if_pos (Nat.succ_pos m), hdepth]
    exact .cons (by simp [isCall]) (hstep ▸ ih hts)

end CallWalk

/-- Tokens in brackets of one kind, with balanced tokens between them. -/
inductive IsGroup (b : Bracket) : List Token → Prop where
  | intro {l r : Token} {inner : List Token} (hl : l.kind = .opening b)
      (hr : r.kind = .closing b) (hinner : nest 0 (inner.map Token.kind) = some 0) :
      IsGroup b (l :: (inner ++ [r]))

/-- The tokens between the parameters of a function and its body: of types, in which braces
stand only behind `struct` and `interface`. -/
inductive IsResults : List Token → Prop where
  | nil : IsResults []
  | word {t : Token} {ts : List Token}
      (ht : t.kind = .ident ∨ t.kind = .keyword .funcKw ∨ t.writesType = true)
      (hts : IsResults ts) : IsResults (t :: ts)
  | group {b : Bracket} {g ts : List Token} (hb : b ≠ .brace) (hg : IsGroup b g)
      (hts : IsResults ts) : IsResults (g ++ ts)
  | fields {t : Token} {g ts : List Token}
      (ht : t.kind = .keyword .structKw ∨ t.kind = .keyword .interfaceKw)
      (hg : IsGroup .brace g) (hts : IsResults ts) : IsResults (t :: (g ++ ts))

/-- A function literal and nothing behind it: its last brace closes its own body. -/
inductive IsUninvoked : List Token → Prop where
  | intro {f : Token} {params results body : List Token} (hf : f.kind = .keyword .funcKw)
      (hparams : IsGroup .paren params) (hresults : IsResults results)
      (hbody : IsGroup .brace body) : IsUninvoked (f :: (params ++ (results ++ body)))

/-- One call of the decoding function, with a type and with arguments that hold no
parenthesis. -/
inductive IsDecoding : List Token → Prop where
  | intro {name l r : Token} {type args : List Token}
      (hname : name.isIdent "_Deserialize" = true) (htype : IsGroup .square type)
      (hl : l.kind = .opening .paren) (hr : r.kind = .closing .paren)
      (hargs : ∀ t ∈ args, t.kind ≠ .opening .paren) :
      IsDecoding (name :: (type ++ l :: (args ++ [r])))

/-- A statement that gives names a value without a call of its own: what is in front of the
sign holds no bracket, and the value is an uninvoked function literal or one decoding call. -/
inductive IsRestoring : List Token → Prop where
  | intro {lead value : List Token} {sign : Token}
      (hlead : ∀ t ∈ lead, t.kind.opens = false ∧ t.kind.closes = false)
      (hsign : sign.kind = .define ∨ sign.kind = .assign)
      (hvalue : IsUninvoked value ∨ IsDecoding value) : IsRestoring (lead ++ sign :: value)

/-- A statement that calls the function literal that its value begins with. -/
inductive IsInvoking : List Token → Prop where
  | intro {lead value rest : List Token} {sign l : Token}
      (hlead : ∀ t ∈ lead, t.kind.opens = false ∧ t.kind.closes = false)
      (hsign : sign.kind = .define ∨ sign.kind = .assign) (hvalue : IsUninvoked value)
      (hl : l.kind = .opening .paren) : IsInvoking (lead ++ sign :: (value ++ l :: rest))

namespace CallWalk

variable {w : CallWalk} {ts : List Token}

/-- The walk over a group of which the bracket makes it quiet. -/
theorem passes_group {b : Bracket} {signature : Bool} {behind : Behind} (h : IsGroup b ts)
    (hw : ∀ l : Token, l.kind = .opening b →
      w.isCall l = false ∧ w.step l = ⟨1, signature, behind⟩) :
    Passes w ts ⟨0, signature, behind⟩ := by
  obtain ⟨hl, hr, hinner⟩ := h
  obtain ⟨hcall, hstep⟩ := hw _ hl
  refine .cons hcall ?_
  rw [hstep]
  refine (passes_quiet hinner).append
    (.cons (isCall_eq_false (by rw [hr]; exact TokenKind.noConfusion)) ?_)
  have hclose : Source.depthAfter 1 (.closing b) = 0 := rfl
  rw [step, if_pos Nat.one_pos, hr, hclose]
  exact .nil _

/-- In a signature every bracket is quiet. -/
theorem passes_signature {b : Bracket} (behind : Behind) (h : IsGroup b ts) :
    Passes ⟨0, true, behind⟩ ts ⟨0, b != .brace || behind == .fields, .value⟩ :=
  passes_group h fun l hl => ⟨by simp [isCall], by simp [step, hl]⟩

/-- A walk over results is still in the signature, and not where fields are expected. -/
theorem passes_results (h : IsResults ts) (behind : Behind) (hbehind : behind ≠ .fields) :
    ∃ behind', behind' ≠ .fields ∧ Passes ⟨0, true, behind⟩ ts ⟨0, true, behind'⟩ := by
  induction h generalizing behind with
  | nil => exact ⟨behind, hbehind, .nil _⟩
  | @word t ts ht hts ih =>
    obtain ⟨next, hnext, hstep⟩ : ∃ next, next ≠ .fields ∧
        step ⟨0, true, behind⟩ t = ⟨0, true, next⟩ := by
      rcases ht with ht | ht | ht
      · refine ⟨_, ?_, step_ident rfl ht⟩
        split <;> exact Behind.noConfusion
      · exact ⟨.absent, Behind.noConfusion, step_function rfl ht⟩
      · exact ⟨.absent, Behind.noConfusion, by rw [step_writesType rfl ht]⟩
    obtain ⟨behind', hbehind', hpasses⟩ := ih next hnext
    exact ⟨behind', hbehind', .cons (by simp [isCall]) (hstep ▸ hpasses)⟩
  | @group b g ts hb hg hts ih =>
    obtain ⟨behind', hbehind', hpasses⟩ := ih .value Behind.noConfusion
    refine ⟨behind', hbehind', .append ?_ hpasses⟩
    have hgroup := passes_signature behind hg
    rwa [show (b != .brace) = true by simpa using hb, Bool.true_or] at hgroup
  | @fields t g ts ht hg hts ih =>
    obtain ⟨behind', hbehind', hpasses⟩ := ih .value Behind.noConfusion
    have hstep : step ⟨0, true, behind⟩ t = ⟨0, true, .fields⟩ := by
      rcases ht with ht | ht <;> rw [step, if_neg (Nat.lt_irrefl 0), ht]
    refine ⟨behind', hbehind', .cons (by simp [isCall]) ?_⟩
    rw [hstep]
    exact (passes_signature .fields hg).append hpasses

/-- Over a function literal up to the end of its body the walk meets no call, and has a value
behind it. -/
theorem passes_uninvoked (h : IsUninvoked ts) (hw : w.quiet = 0) :
    Passes w ts ⟨0, false, .value⟩ := by
  obtain ⟨hf, hparams, hresults, hbody⟩ := h
  refine .cons (isCall_eq_false (by rw [hf]; decide)) ?_
  rw [step_function hw hf]
  obtain ⟨behind, hbehind, hpasses⟩ := passes_results hresults .value Behind.noConfusion
  refine (passes_signature .absent hparams).append (hpasses.append ?_)
  have hend := passes_signature behind hbody
  rwa [show (behind == .fields) = false by simpa using hbehind] at hend

/-- What stands in front of a value, without brackets, leads to where a value can begin. -/
theorem passes_lead {lead : List Token} {sign : Token} (hw : w.quiet = 0)
    (hlead : ∀ t ∈ lead, t.kind.opens = false ∧ t.kind.closes = false)
    (hsign : sign.kind = .define ∨ sign.kind = .assign) :
    Passes w (lead ++ [sign]) ⟨0, false, .absent⟩ := by
  have hcall : ∀ {w : CallWalk} {t : Token}, t.kind.opens = false → w.isCall t = false := by
    intro w t ht
    refine isCall_eq_false fun hk => ?_
    rw [hk] at ht
    cases ht
  induction lead generalizing w with
  | nil =>
    refine .cons (hcall (by rcases hsign with h | h <;> rw [h] <;> rfl)) ?_
    rw [step_sign hw hsign]
    exact .nil _
  | cons t lead ih =>
    obtain ⟨ht, hlead⟩ := forall_mem_cons.1 hlead
    exact .cons (hcall ht.1) (ih (quiet_step hw ht.1) hlead)

/-- Over one decoding call the walk meets no other call. -/
theorem calls_decoding (h : IsDecoding ts) : calls ⟨0, false, .absent⟩ ts = [] := by
  obtain @⟨name, l, r, type, args, hname, htype, hl, hr, hargs⟩ := h
  have hident : name.kind = .ident := eq_of_beq (Bool.and_eq_true_iff.1 hname).1
  have htypes : Passes ⟨0, false, .decoder⟩ type ⟨0, false, .decoding⟩ :=
    passes_group htype fun l hl => ⟨isCall_eq_false (by rw [hl]; decide), by simp [step, hl]⟩
  have hfront : Passes ⟨0, false, .absent⟩ (name :: type) ⟨0, false, .decoding⟩ := by
    refine .cons (isCall_eq_false (by rw [hident]; decide)) ?_
    rw [step_ident rfl hident, if_pos hname]
    exact htypes
  rw [← cons_append, hfront.calls_append, calls, if_neg (by simp [isCall]), calls_eq_nil]
  intro t ht
  rcases mem_append.1 ht with ht | ht
  · exact hargs t ht
  · rw [mem_singleton.1 ht, hr]
    exact TokenKind.noConfusion

/-- **A restoring statement makes no call of its own.** -/
theorem calls_restoring (h : IsRestoring ts) : start.calls ts = [] := by
  obtain ⟨hlead, hsign, hvalue⟩ := h
  rw [← singleton_append, ← append_assoc,
    (passes_lead rfl hlead hsign).calls_append]
  rcases hvalue with hvalue | hvalue
  · exact (passes_uninvoked hvalue rfl).silent
  · exact calls_decoding hvalue

/-- A statement that calls a function literal makes a call. -/
theorem calls_invoking (h : IsInvoking ts) : start.calls ts ≠ [] := by
  obtain ⟨hlead, hsign, hvalue, hl⟩ := h
  have hpasses :=
    (passes_lead (w := start) rfl hlead hsign).append (passes_uninvoked hvalue rfl)
  rw [← singleton_append, ← append_assoc, ← append_assoc,
    hpasses.calls_append, calls, if_pos (by simp [isCall, hl])]
  exact cons_ne_nil _ _

end CallWalk

/-! ### Tokens of the statements that are copied -/

namespace Lexer

/-- Blanks at the front of a text are no tokens. -/
theorem exists_spelled_trimStart (here : Position) (t : Text) :
    ∃ here', spelled here (pieces t) = spelled here' (pieces (Text.trimStart t)) := by
  induction t generalizing here with
  | nil => exact ⟨here, rfl⟩
  | cons c t ih =>
    by_cases hc : isBlank c = true
    · have hfirst : firstPiece c t = (⟨.blank, [c]⟩, t) := by rw [firstPiece, if_pos hc]
      obtain ⟨here', ht⟩ := ih (here.advance [c])
      refine ⟨here', ?_⟩
      rw [pieces_cons, hfirst, Text.trimStart, dropWhile_cons_of_pos hc]
      exact ht
    · refine ⟨here, ?_⟩
      rw [Text.trimStart, dropWhile_cons_of_neg hc]

/-- The first two tokens of a text that begins with the decoding function. -/
theorem exists_decoder_of_prefix (h : "_Deserialize[".toList <+: Text.trimStart t) :
    ∃ name l ts, (tokenize t).filter Token.isSpelled = name :: l :: ts ∧
      name.isIdent "_Deserialize" = true ∧ l.kind = .opening .square := by
  obtain ⟨more, hmore⟩ := h
  obtain ⟨here, hspelled⟩ := exists_spelled_trimStart .start t
  have hchars : "Deserialize".toList.all isIdentifierChar = true := by decide
  have hname : IsIdentifier "_Deserialize".toList :=
    ⟨⟨'_', "Deserialize".toList, rfl, by decide, all_eq_true.1 hchars⟩, by decide⟩
  have hpieces : pieces (Text.trimStart t) =
      ⟨.token .ident, "_Deserialize".toList⟩ :: ⟨.token (.opening .square), ['[']⟩ ::
        pieces more := by
    rw [← hmore, show "_Deserialize[".toList ++ more = "_Deserialize".toList ++ '[' ::
      more from rfl, pieces_identifier hname (by decide), pieces_cons]
    rfl
  rw [filter_isSpelled_tokenize, hspelled, hpieces]
  exact ⟨_, _, _, rfl, rfl, rfl⟩

/-- The first two tokens and the last one of what counts as a function literal. -/
theorem exists_function_of_isFunctionLiteral (h : isFunctionLiteral t = true) :
    ∃ f l ts e, (tokenize t).filter Token.isSpelled = f :: l :: ts ∧
      f.kind = .keyword .funcKw ∧ l.kind = .opening .paren ∧
      (f :: l :: ts).getLast? = some e ∧ e.kind = .closing .brace := by
  unfold isFunctionLiteral at h
  rw [filter_written_tokenize] at h
  dsimp only at h
  split at h
  next f l ts heq =>
    simp only [Bool.and_eq_true, beq_iff_eq] at h
    obtain ⟨⟨hf, hl⟩, hlast⟩ := h
    obtain ⟨e, he, hbrace⟩ := (Option.any_eq_true _ _).1 hlast
    exact ⟨f, l, ts, e, heq, hf, hl, heq ▸ he, eq_of_beq hbrace⟩
  · cases h

end Lexer

namespace Replay

/-- What is known of the tokens of a statement that is copied.  It defines one name, and of
the tokens of its value the first two are `func (` and the last one is a closing brace; or it
defines names, and its right side begins with `_Deserialize [`.  Nothing is known of the
tokens between. -/
inductive CopiedTokens (s : Source) (st : Statement) : Prop where
  | literal (b : Binding) (value : List Token) (f l e : Token) (ts : List Token)
      (bindings : s.bindings st = [b]) (define : b.define = true) (run : value <:+: s.tokens)
      (extent : b.value = Source.extent value)
      (spelled : value.filter Token.isSpelled = f :: l :: ts)
      (first : f.kind = .keyword .funcKw) (second : l.kind = .opening .paren)
      (last : (f :: l :: ts).getLast? = some e) (brace : e.kind = .closing .brace)
  | decoding (b : Binding) (rest : List Binding) (values : List Token) (name l : Token)
      (ts : List Token) (bindings : s.bindings st = b :: rest) (define : b.define = true)
      (run : values <:+: s.tokens) (extent : b.rhs = Source.extent values)
      (spelled : values.filter Token.isSpelled = name :: l :: ts)
      (first : name.isIdent "_Deserialize" = true) (second : l.kind = .opening .square)

theorem Brings.copiedTokens {s : Source} (h : Brings s st) : CopiedTokens s st := by
  cases h with
  | literal b value text hbindings hdefine hvalue hslice hfunction =>
    have hread : b.ReadOff s.tokens :=
      Source.readOff_of_mem_bindings (hbindings ▸ mem_singleton_self b)
    obtain ⟨p, hrun, hextent⟩ := hread.value value hvalue
    obtain ⟨u, here, hu, hspelled⟩ := exists_text_of_extent (s.tokens_eq ▸ hrun) hextent
    obtain rfl : u = text := Except.ok.inj (hu.symm.trans hslice)
    obtain ⟨f, l, ts, e, htokens, hf, hl, hlast, hbrace⟩ :=
      exists_function_of_isFunctionLiteral hfunction
    rw [htokens, map_cons, map_cons] at hspelled
    refine .literal b p _ _ (e.move here) _ hbindings hdefine hrun (hvalue.trans hextent.symm)
      hspelled hf hl ?_ hbrace
    rw [← map_cons, ← map_cons, getLast?_map, hlast]
    rfl
  | decoding b rest rhs text hbindings hdefine hvalue hrhs hslice hdecodes =>
    have hread : b.ReadOff s.tokens :=
      Source.readOff_of_mem_bindings (hbindings ▸ mem_cons_self)
    obtain ⟨values, hrun, hextent⟩ := hread.rhs
    obtain ⟨u, here, hu, hspelled⟩ :=
      exists_text_of_extent (s.tokens_eq ▸ hrun) (hextent.symm.trans hrhs)
    obtain rfl : u = text := Except.ok.inj (hu.symm.trans hslice)
    obtain ⟨name, l, ts, htokens, hname, hl⟩ := exists_decoder_of_prefix hdecodes
    rw [htokens, map_cons, map_cons] at hspelled
    exact .decoding b rest values _ _ _ hbindings hdefine hrun hextent hspelled
      (by rw [Token.isIdent_move]; exact hname) hl

/-- The only replay is what a name of it depends on. -/
theorem closure_singleton (h : name ∈ r.names) : closure [r] (some name) = [r] := by
  have hlast : lastBinding? [r] name = some 0 := by simp [lastBinding?, h]
  have hmem : 0 ∈ closureFrom [r] [name] [name] [] :=
    (isLeast_closureFrom [r] [name]).1.queued name (mem_singleton_self _) 0 hlast
  simp [closure, hmem]

end Replay

/-! ### Probes -/

namespace ArityQuery

/-- The brackets with which a statement opens the arguments of a call when it is run, those of
a decoding call aside. -/
def callsOf (s : Source) (st : Statement) : List Token :=
  CallWalk.start.calls (s.tokensOf st)

/-- **What a probe copies, and when that makes no call.**  For every question that showing a
last value asks, `probeProgram` is `probeText` of the program up to the body of its entry
function, of some statements before the call as they are written, with a discard for each name
that they bind, and of the callee.  Each copied statement has the outermost tokens of
`Replay.CopiedTokens`.  It makes no call if it is `IsRestoring`, and one if it is
`IsInvoking`; a callee without a parenthesis makes none. -/
theorem probeProgram_copies {q : ArityQuery} {program : Text} (h : q.AskedFor program) :
    ∃ front before copied texts, Span.slice ⟨0, q.bodyStart⟩ program = .ok front ∧
      q.preceding = .ok before ∧ copied.Sublist (Source.ofText before).statements ∧
      Forall₂ (fun st text => (Source.ofText before).statementText st = .ok text)
        copied texts ∧
      q.probeProgram = .ok (probeText front texts
        (copied.flatMap fun st => ((Source.ofText before).bindings st).map (·.name))
        q.callee.trim) ∧
      (∀ st ∈ copied, Replay.Brings (.ofText before) st ∧
        Replay.CopiedTokens (.ofText before) st ∧
        (IsRestoring ((Source.ofText before).tokensOf st) →
          callsOf (.ofText before) st = []) ∧
        (IsInvoking ((Source.ofText before).tokensOf st) →
          callsOf (.ofText before) st ≠ [])) ∧
      ∃ entry st ts, (Source.ofText program).entryPoint = some entry ∧
        st ∈ (Source.ofText program).bodyStatements entry ∧ q.statementStart = st.span.start ∧
        (Source.ofText program).IsCalleeOf st ts q.callee ∧
        ((∀ t ∈ ts, t.kind ≠ .opening .paren) → CallWalk.start.calls ts = []) := by
  obtain ⟨front, before, copied, texts, hfront, hbefore, hcopied, hbrings, htexts,
    hprobe, entry, st, ts, hentry, hst, hstart, hcallee⟩ := exists_parts_of_askedFor h
  refine ⟨front, before, copied, texts, hfront, hbefore, hcopied, htexts, hprobe,
    fun st hst => ?_, entry, st, ts, hentry, hst, hstart, hcallee, CallWalk.calls_eq_nil⟩
  exact ⟨hbrings st hst, (hbrings st hst).copiedTokens, CallWalk.calls_restoring,
    CallWalk.calls_invoking⟩

/-- A body that brings back a value, and a function that uses it, before it calls anything. -/
def restoringBody : Text :=
  "\n\tr, _ := _Deserialize[R](\"k\")\n\tg := func() P \x7b return h(r) \x7d\n\tf()\n\t"

theorem isRestoring_restoringBody (hst : st ∈ (Source.ofText restoringBody).statements)
    (hbrings : Replay.Brings (.ofText restoringBody) st) :
    IsRestoring ((Source.ofText restoringBody).tokensOf st) := by
  have hstatements : (Source.ofText restoringBody).statements =
      [⟨0, 10, ⟨2, 30⟩, some 11⟩, ⟨12, 24, ⟨32, 61⟩, some 25⟩,
        ⟨26, 28, ⟨63, 66⟩, some 29⟩] := by
    decide +kernel
  rw [hstatements] at hst
  rcases mem_cons.1 hst with rfl | hst
  · have htokens : (Source.ofText restoringBody).tokensOf ⟨0, 10, ⟨2, 30⟩, some 11⟩ =
        [⟨.ident, "r".toList, ⟨2, 2, 2⟩⟩, ⟨.comma, ",".toList, ⟨3, 2, 3⟩⟩,
         ⟨.ident, "_".toList, ⟨5, 2, 5⟩⟩, ⟨.define, ":=".toList, ⟨7, 2, 7⟩⟩,
         ⟨.ident, "_Deserialize".toList, ⟨10, 2, 10⟩⟩,
         ⟨.opening .square, "[".toList, ⟨22, 2, 22⟩⟩,
         ⟨.ident, "R".toList, ⟨23, 2, 23⟩⟩, ⟨.closing .square, "]".toList, ⟨24, 2, 24⟩⟩,
         ⟨.opening .paren, "(".toList, ⟨25, 2, 25⟩⟩, ⟨.str, "\"k\"".toList, ⟨26, 2, 26⟩⟩,
         ⟨.closing .paren, ")".toList, ⟨29, 2, 29⟩⟩] := by
      decide +kernel
    rw [htokens]
    exact @IsRestoring.intro [_, _, _] _ _ (by decide) (.inl rfl) <| .inr <|
      @IsDecoding.intro _ _ _ [_, _, _] [_] rfl (@IsGroup.intro _ _ _ [_] rfl rfl rfl) rfl rfl
        (by decide)
  · rcases mem_cons.1 hst with rfl | hst
    · have htokens : (Source.ofText restoringBody).tokensOf ⟨12, 24, ⟨32, 61⟩, some 25⟩ =
          [⟨.ident, "g".toList, ⟨32, 3, 2⟩⟩, ⟨.define, ":=".toList, ⟨34, 3, 4⟩⟩,
           ⟨.keyword .funcKw, "func".toList, ⟨37, 3, 7⟩⟩,
           ⟨.opening .paren, "(".toList, ⟨41, 3, 11⟩⟩,
           ⟨.closing .paren, ")".toList, ⟨42, 3, 12⟩⟩,
           ⟨.ident, "P".toList, ⟨44, 3, 14⟩⟩, ⟨.opening .brace, "\x7b".toList, ⟨46, 3, 16⟩⟩,
           ⟨.keyword .returnKw, "return".toList, ⟨48, 3, 18⟩⟩,
           ⟨.ident, "h".toList, ⟨55, 3, 25⟩⟩,
           ⟨.opening .paren, "(".toList, ⟨56, 3, 26⟩⟩, ⟨.ident, "r".toList, ⟨57, 3, 27⟩⟩,
           ⟨.closing .paren, ")".toList, ⟨58, 3, 28⟩⟩,
           ⟨.closing .brace, "\x7d".toList, ⟨60, 3, 30⟩⟩] := by
        decide +kernel
      rw [htokens]
      exact @IsRestoring.intro [_] _ _ (by decide) (.inl rfl) <| .inl <|
        @IsUninvoked.intro _ [_, _] [_] [_, _, _, _, _, _, _] rfl
          (@IsGroup.intro _ _ _ [] rfl rfl rfl) (.word (.inl rfl) .nil)
          (@IsGroup.intro _ _ _ [_, _, _, _, _] rfl rfl rfl)
    · obtain rfl := mem_singleton.1 hst
      exact absurd hbrings (by decide +kernel)

/-- The question about a method of a function that is brought back with the value that it
uses, behind a call of the turn: the probe makes no call. -/
theorem probeProgram_copies_method :
    let program : Text := "package main\n\nfunc main() \x7b".toList ++ restoringBody ++
      "g.Len() // :INPUT\n\x7d\n"
    let q : ArityQuery := ⟨"g.Len", program, 27, 95⟩
    q.AskedFor program ∧ q.preceding = .ok restoringBody ∧
      ∃ front texts names, ∃ copied : List Statement,
        copied.Sublist (Source.ofText restoringBody).statements ∧
        (∀ st ∈ copied, callsOf (.ofText restoringBody) st = []) ∧
        q.probeProgram = .ok (probeText front texts names "g.Len") := by
  intro program q
  have hasked : q.AskedFor program := askedFor_of_query (by decide +kernel)
  have hbody : q.preceding = .ok restoringBody := by decide +kernel
  obtain ⟨front, before, copied, texts, -, hbefore, hcopied, -, hprobe, hcalls, -⟩ :=
    probeProgram_copies hasked
  obtain rfl : restoringBody = before := Except.ok.inj (hbody.symm.trans hbefore)
  refine ⟨hasked, hbody, front, texts, _, copied, hcopied, fun st hst => ?_, hprobe⟩
  obtain ⟨hbrings, -, hrestoring, -⟩ := hcalls st hst
  exact hrestoring (isRestoring_restoringBody (hcopied.subset hst) hbrings)

/-- The probe if one statement before the call brings a value back, and it binds the first
name of the callee. -/
theorem probeProgram_of_single {q : ArityQuery} {front callee : Text}
    (hreplays : q.replays = .ok [r])
    (hfront : Span.slice ⟨0, q.bodyStart⟩ q.program = .ok front) (hhead : q.head? = some name)
    (hname : name ∈ r.names) (hcallee : q.callee.trim = callee) :
    q.probeProgram = .ok (probeText front [r.text] r.names callee) := by
  rw [probeProgram_eq hreplays hfront, hhead, Replay.closure_singleton hname,
    map_singleton, flatMap_singleton, hcallee]

/-- **Probes that make a call of the input**: a call in the callee, a function literal that is
called where it stands, and a call in the arguments of a decoding call. -/
theorem probe_calls :
    let front : Text := "package main\n\nfunc main() \x7b"
    (let program : Text := front ++ "\n\tf().g() // :INPUT\n\x7d\n"
     let q : ArityQuery := ⟨"f().g", program, 27, 29⟩
     q.AskedFor program ∧ q.staticCount = .ok none ∧
       CallWalk.start.calls (tokenize q.callee) ≠ [] ∧
       q.probeProgram = .ok (probeText front [] [] "f().g")) ∧
    (let line : Text := "f := func() P \x7b effect(); return p \x7d() == P\x7b\x7d"
     let program : Text := front ++ "\n\t" ++ line ++ "\nf.String() // :INPUT\n\x7d\n"
     let q : ArityQuery := ⟨"f.String", program, 27, 75⟩
     q.AskedFor program ∧ q.staticCount = .ok none ∧
       CallWalk.start.calls (tokenize line) ≠ [] ∧
       q.probeProgram = .ok (probeText front [line] ["f".toList] "f.String")) ∧
    (let line : Text := "x, y := _Deserialize[int](effect())"
     let program : Text := front ++ "\n\t" ++ line ++ "\nx.String() // :INPUT\n\x7d\n"
     let q : ArityQuery := ⟨"x.String", program, 27, 65⟩
     q.AskedFor program ∧ q.staticCount = .ok none ∧
       CallWalk.start.calls (tokenize line) ≠ [] ∧
       q.probeProgram =
         .ok (probeText front [line] ["x".toList, "y".toList] "x.String")) := by
  intro front
  refine ⟨?_, ?_, ?_⟩
  · exact ⟨askedFor_of_query (by decide +kernel), by decide +kernel⟩
  · intro line program q
    have hreplays : q.replays = .ok [⟨line, ["f".toList], identifiers line⟩] := by
      decide +kernel
    have hhead : q.head? = some "f".toList := by decide +kernel
    have hfront : Span.slice ⟨0, q.bodyStart⟩ q.program = .ok front := by decide +kernel
    have hcallee : q.callee.trim = "f.String".toList := by decide +kernel
    have hprobe :=
      probeProgram_of_single hreplays hfront hhead (mem_singleton_self _) hcallee
    exact ⟨askedFor_of_query (by decide +kernel), by decide +kernel, by decide +kernel,
      hprobe⟩
  · intro line program q
    have hreplays : q.replays = .ok [⟨line, ["x".toList, "y".toList], identifiers line⟩] := by
      decide +kernel
    have hhead : q.head? = some "x".toList := by decide +kernel
    have hfront : Span.slice ⟨0, q.bodyStart⟩ q.program = .ok front := by decide +kernel
    have hcallee : q.callee.trim = "x.String".toList := by decide +kernel
    have hprobe :=
      probeProgram_of_single hreplays hfront hhead mem_cons_self hcallee
    exact ⟨askedFor_of_query (by decide +kernel), by decide +kernel, by decide +kernel,
      hprobe⟩

end ArityQuery

end Notebook
