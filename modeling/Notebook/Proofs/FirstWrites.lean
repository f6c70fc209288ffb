import Notebook.Proofs.Plans
import Notebook.Proofs.TurnSafety

/-!
# Which write of a variable a plan keeps

The entry function may give a name several values.  What the program stores of a variable is
its last value, but the function literal that a plan keeps for a name is read from the text,
and it is that of the first binding that counts.  The two agree on a name whose last value is
the first one that counts, and only there is the function that is replayed the one that the
variable held.

## Main statements

* `PersistencePlan.literal_of_first_write`: the literal of a name is that of its first write
* `PersistencePlan.not_last_write_wins`: a later write is not seen
-/

namespace Notebook

open List

variable {b : Binding} {c : Capture} {entry : EntryPoint} {bs : List Binding} {s : Source}
  {name program source t : Text} {k : Token}

/-- Whether a binding gives its name a value, of its own or together with others. -/
def Binding.isValued (b : Binding) : Bool :=
  b.value.isSome || b.rhs.isSome

/-! ### What a function literal is spelled with -/

namespace Lexer

/-- Only a word is a keyword, and it is spelled like one. -/
theorem firstPiece_keyword {c : Char} {k : Keyword}
    (h : (firstPiece c t).1.kind = .token (.keyword k)) :
    (firstPiece c t).1.text = k.spelling.toList := by
  have hword := isIdentifierStart_of_isWord h rfl
  rw [firstPiece_identifier hword] at h ⊢
  cases hkey : Keyword.ofText? (c :: t.takeWhile isIdentifierChar) with
  | none =>
    rw [hkey] at h
    cases h
  | some k' =>
    rw [hkey] at h
    cases h
    have hspelled := find?_some hkey
    exact (eq_of_beq hspelled).symm

theorem pieces_keyword {p : Piece} {k : Keyword} (hp : p ∈ pieces t)
    (h : p.kind = .token (.keyword k)) : p.text = k.spelling.toList := by
  fun_induction pieces t with
  | case1 => simp at hp
  | case2 c t ih =>
    rcases mem_cons.1 hp with rfl | hp
    · exact firstPiece_keyword h
    · exact ih hp

end Lexer

/-- A keyword is spelled like one. -/
theorem lexeme_of_keyword {w : Keyword} (hk : k ∈ tokenize t) (h : k.kind = .keyword w) :
    k.lexeme = w.spelling.toList := by
  rcases Lexer.exists_piece_of_mem_tokensOf hk with ⟨-, hsemi | heof⟩ | ⟨p, hp, hkind, htext⟩
  · cases h.symm.trans hsemi
  · cases h.symm.trans heof
  · rw [← htext]
    exact Lexer.pieces_keyword hp (h ▸ hkind)

/-- An identifier can name a variable. -/
theorem isIdentifier_of_mem_tokenize (hk : k ∈ tokenize t) (h : k.kind = .ident) :
    IsIdentifier k.lexeme := by
  rcases Lexer.exists_piece_of_mem_tokensOf hk with ⟨-, hsemi | heof⟩ | ⟨p, hp, hkind, htext⟩
  · cases h.symm.trans hsemi
  · cases h.symm.trans heof
  · rw [← htext]
    exact Lexer.pieces_ident hp (hkind.trans (congrArg _ h))

/-- Trimming takes white space only. -/
theorem Text.mem_trim {c : Char} (h : c ∈ t) (hc : isBlank c = false) : c ∈ t.trim := by
  have hdrop : ∀ u : Text, c ∈ u → c ∈ u.dropWhile isBlank := by
    intro u hu
    rw [← takeWhile_append_dropWhile (p := isBlank) (l := u)] at hu
    rcases mem_append.1 hu with hu | hu
    · rw [mem_takeWhile_imp hu] at hc
      cases hc
    · exact hu
  rw [trim, trimEnd, mem_reverse]
  exact hdrop _ (mem_reverse.2 (hdrop t h))

/-- A function literal is not the text of the empty value. -/
theorem trim_ne_nil_of_isFunctionLiteral (h : isFunctionLiteral t = true) :
    t.trim ≠ "nil".toList := by
  obtain ⟨k, hk, hkind⟩ : ∃ k ∈ tokenize t, k.kind = .keyword .funcKw := by
    unfold isFunctionLiteral at h
    simp only at h
    split at h
    next f l rest heq =>
      have hmem : f ∈ tokenize t := mem_of_mem_filter (heq ▸ mem_cons_self)
      simp only [Bool.and_eq_true, beq_iff_eq] at h
      exact ⟨f, hmem, h.1.1⟩
    · cases h
  obtain ⟨a, b, ht, -⟩ := (tokenize_placed t).standsIn k hk
  have hf : 'f' ∈ t := by
    rw [ht, lexeme_of_keyword hk hkind]
    exact mem_append_left b (mem_append_right a (by decide))
  intro htrim
  have := Text.mem_trim hf (by decide)
  rw [htrim] at this
  revert this
  decide

namespace PersistencePlan

/-- The first of some bindings that makes a capture of a name, with that capture. -/
structure FirstWrite (s : Source) (bs : List Binding) (name : Text) (c : Capture) : Prop where
  name_eq : c.name = name
  first : ∃ front b rest, bs = front ++ b :: rest ∧ capture? s b = .ok (some c) ∧
    ∀ d ∈ front, ∀ c', capture? s d = .ok (some c') → c'.name ≠ name

/-- The last of some bindings that gives a name a value, and the bindings in front of it. -/
structure LastWrite (bs : List Binding) (name : Text) (front : List Binding) (b : Binding) :
    Prop where
  name_eq : b.name = name
  valued : b.isValued = true
  last : ∃ rest, bs = front ++ b :: rest ∧ ∀ d ∈ rest, d.name = name → d.isValued = false

/-- The function literal that a binding gives its name, if that is its value. -/
def literalOf? (s : Source) (b : Binding) : Option Text :=
  b.value.bind fun v => (s.slice v).toOption.filter isFunctionLiteral

/-- The bindings that a plan looks at: those of the entry function, storing calls left out. -/
def planned (s : Source) (entry : EntryPoint) : List Binding :=
  ((s.bodyStatements entry).filter fun st => !s.isPersistence st).flatMap s.bindings

/-! ### The first of each name -/

/-- What is kept is what no earlier capture has the name of. -/
theorem mem_firstOfEach_iff {seen : List Text} {cs : List Capture} :
    c ∈ firstOfEach seen cs ↔
      c.name ∉ seen ∧ ∃ front rest, cs = front ++ c :: rest ∧ ∀ d ∈ front,
        d.name ≠ c.name := by
  induction cs generalizing seen with
  | nil => simp [firstOfEach]
  | cons a cs ih =>
    rw [firstOfEach]
    split
    next ha =>
      rw [ih]
      refine and_congr_right fun hc => ⟨?_, ?_⟩
      · rintro ⟨front, rest, rfl, hfront⟩
        refine ⟨a :: front, rest, rfl, ?_⟩
        exact forall_mem_cons.2 ⟨fun h => hc (h ▸ ha), hfront⟩
      · rintro ⟨front, rest, heq, hfront⟩
        cases front with
        | nil =>
          obtain ⟨rfl, -⟩ := List.cons.inj heq
          exact absurd ha hc
        | cons b front =>
          obtain ⟨-, rfl⟩ := List.cons.inj heq
          exact ⟨front, rest, rfl, fun d hd => hfront d (mem_cons_of_mem b hd)⟩
    next ha =>
      rw [mem_cons, ih]
      constructor
      · rintro (rfl | ⟨hc, front, rest, rfl, hfront⟩)
        · exact ⟨ha, [], cs, rfl, by simp⟩
        · rw [mem_append, mem_singleton, not_or] at hc
          refine ⟨hc.1, a :: front, rest, rfl, ?_⟩
          exact forall_mem_cons.2 ⟨Ne.symm hc.2, hfront⟩
      · rintro ⟨hc, front, rest, heq, hfront⟩
        cases front with
        | nil => exact .inl (List.cons.inj heq).1.symm
        | cons b front =>
          obtain ⟨rfl, rfl⟩ := List.cons.inj heq
          refine .inr ⟨?_, front, rest, rfl, fun d hd => hfront d (mem_cons_of_mem a hd)⟩
          rw [mem_append, mem_singleton, not_or]
          exact ⟨hc, Ne.symm (hfront a mem_cons_self)⟩

/-- A capture has the name and the place of its binding. -/
theorem capture?_name_pos (h : capture? s b = .ok (some c)) :
    c.name = b.name ∧ c.pos = b.pos := by
  cases (capture?_eq_some_iff.1 h).2 <;> exact ⟨rfl, rfl⟩

theorem isValued_of_capture? (h : capture? s b = .ok (some c)) : b.isValued = true := by
  unfold Binding.isValued
  cases (capture?_eq_some_iff.1 h).2 with
  | own hvalue => simp [hvalue]
  | shared _ hrhs => simp [hrhs]

/-- The literal of a capture is that of its binding. -/
theorem capture?_literal_eq (h : capture? s b = .ok (some c)) :
    c.literal = literalOf? s b := by
  cases (capture?_eq_some_iff.1 h).2 with
  | own hvalue htext => simp [literalOf?, hvalue, htext, Except.toOption, Option.filter]
  | shared hvalue => simp [literalOf?, hvalue]

/-- The literal of a binding is the text of its value. -/
theorem exists_value_of_literalOf? (h : literalOf? s b = some source) :
    ∃ v, b.value = some v ∧ s.slice v = .ok source ∧ isFunctionLiteral source = true := by
  obtain ⟨v, hv, h⟩ := Option.bind_eq_some_iff.1 h
  obtain ⟨h, hliteral⟩ := Option.filter_eq_some_iff.1 h
  refine ⟨v, hv, ?_, hliteral⟩
  cases hs : s.slice v with
  | error e =>
    rw [hs] at h
    cases h
  | ok text =>
    rw [hs] at h
    cases h
    rfl

/-- A function literal counts. -/
theorem capture?_of_literalOf? (hname : b.name ≠ blankName)
    (h : literalOf? s b = some source) : ∃ c, capture? s b = .ok (some c) := by
  obtain ⟨v, hv, hslice, hliteral⟩ := exists_value_of_literalOf? h
  have hnil := trim_ne_nil_of_isFunctionLiteral hliteral
  exact ⟨_, capture?_eq_some_iff.2 ⟨hname, .own hv hslice hnil⟩⟩

/-- The capture of a binding, with nothing where its value cannot be read. -/
def captured (s : Source) (b : Binding) : Option Capture :=
  match capture? s b with
  | .ok c => c
  | .error _ => none

theorem captured_eq_some_iff : captured s b = some c ↔ capture? s b = .ok (some c) := by
  unfold captured
  split
  next o ho => simp [ho]
  next e he => simp [he]

theorem filterMap_captured {found : List (Option Capture)}
    (h : bs.mapM (capture? s) = .ok found) :
    found.filterMap id = bs.filterMap (captured s) := by
  induction bs generalizing found with
  | nil =>
    cases h
    rfl
  | cons b bs ih =>
    rw [mapM_cons] at h
    obtain ⟨o, ho, h⟩ := Checked.bind_eq_ok.1 h
    obtain ⟨os, hos, h⟩ := Checked.bind_eq_ok.1 h
    cases h
    have hb : captured s b = o := by rw [captured, ho]
    rw [filterMap_cons, filterMap_cons, hb, ih hos]
    rfl

/-- The captures that are kept of some bindings are their first writes. -/
theorem mem_firstOfEach_iff_firstWrite :
    c ∈ firstOfEach [] (bs.filterMap (captured s)) ↔ FirstWrite s bs c.name c := by
  rw [mem_firstOfEach_iff]
  constructor
  · rintro ⟨-, front, rest, heq, hfront⟩
    obtain ⟨bs₁, bs₂, rfl, rfl, hrest⟩ := filterMap_eq_append_iff.1 heq
    obtain ⟨pre, b, post, rfl, hpre, hb, -⟩ := filterMap_eq_cons_iff.1 hrest
    refine ⟨rfl, bs₁ ++ pre, b, post, by simp, captured_eq_some_iff.1 hb, ?_⟩
    intro d hd c' hc'
    rw [← captured_eq_some_iff] at hc'
    rcases mem_append.1 hd with hd | hd
    · exact hfront c' (mem_filterMap.2 ⟨d, hd, hc'⟩)
    · rw [hpre d hd] at hc'
      cases hc'
  · rintro ⟨-, front, b, rest, rfl, hb, hfront⟩
    refine ⟨by simp, front.filterMap (captured s), rest.filterMap (captured s), ?_, ?_⟩
    · rw [filterMap_append, filterMap_cons, captured_eq_some_iff.2 hb]
    · intro d hd
      obtain ⟨b', hb', hd⟩ := mem_filterMap.1 hd
      exact hfront b' hb' d (captured_eq_some_iff.1 hd)

/-! ### Plans -/

theorem lookup_eq_some_iff_mem {ls : Literals} (h : (ls.map Prod.fst).Nodup) :
    ls.lookup name = some source ↔ (name, source) ∈ ls := by
  induction ls with
  | nil => simp
  | cons p ls ih =>
    obtain ⟨key, text⟩ := p
    rw [map_cons, nodup_cons] at h
    rw [lookup_cons, mem_cons]
    cases hkey : name == key with
    | true =>
      have heq : name = key := by simpa using hkey
      subst heq
      have hnot : (name, source) ∉ ls := fun hmem => h.1 (mem_map.2 ⟨_, hmem, rfl⟩)
      simp [hnot, eq_comm]
    | false =>
      have hne : name ≠ key := by simpa using hkey
      simp [ih h.2, hne]

section

variable {plan : PersistencePlan} (hentry : (Source.ofText program).entryPoint = some entry)
  (hplan : planPersistence program = .ok (some plan))
include hentry hplan

/-- The literals of a plan are those of the first writes. -/
theorem mem_literals_iff :
    (name, source) ∈ plan.literals ↔
      ∃ c, FirstWrite (.ofText program) (planned (.ofText program) entry) name c ∧
        c.literal = some source := by
  simp only [planPersistence_eq, hentry] at hplan
  obtain ⟨found, hfound, hplan⟩ := Checked.bind_eq_ok.1 hplan
  obtain ⟨text, -, hplan⟩ := Checked.bind_eq_ok.1 hplan
  cases hplan
  rw [findings_eq hentry] at hfound
  obtain ⟨calls, -, hfound⟩ := Checked.bind_eq_ok.1 hfound
  obtain ⟨cs, hcs, hfound⟩ := Checked.bind_eq_ok.1 hfound
  cases hfound
  rw [captures_body_eq] at hcs
  obtain ⟨os, hos, hcs⟩ := Checked.bind_eq_ok.1 hcs
  cases hcs
  -- Sorting by position only permutes the captures.
  rw [filterMap_captured hos]
  have hperm := mergeSort_perm
    (firstOfEach []
      ((planned (.ofText program) entry).filterMap (captured (.ofText program))))
    fun a b => decide (a.pos ≤ b.pos)
  simp only [Findings.literals, mem_filterMap]
  constructor
  · rintro ⟨c, hc, hl⟩
    obtain ⟨l, hl, heq⟩ := Option.map_eq_some_iff.1 hl
    cases heq
    exact ⟨c, mem_firstOfEach_iff_firstWrite.1 (hperm.mem_iff.1 hc), hl⟩
  · rintro ⟨c, hc, hl⟩
    have hname := hc.name_eq
    subst hname
    exact ⟨c, hperm.mem_iff.2 (mem_firstOfEach_iff_firstWrite.2 hc), by rw [hl]; rfl⟩

/-- What the last write of a name leaves it is kept, if no earlier write counts. -/
theorem find?_literals_of_lastWrite {front : List Binding} (hname : name ≠ blankName)
    (hlast : LastWrite (planned (.ofText program) entry) name front b)
    (hfront : ∀ d ∈ front, ∀ c, capture? (.ofText program) d = .ok (some c) → c.name ≠ name) :
    plan.literals.find? name = literalOf? (.ofText program) b := by
  obtain ⟨rest, hbs, hrest⟩ := hlast.last
  have hsound := sound_of_plan hplan
  have hkeys := hsound.nodup.sublist hsound.keys
  apply Option.ext
  intro source
  rw [Literals.find?, lookup_eq_some_iff_mem hkeys, mem_literals_iff hentry hplan, hbs]
  constructor
  · rintro ⟨c, ⟨hc, front', b', rest', heq, hb', -⟩, hl⟩
    -- Only the last write can be the binding that counts.
    have hmem : b' ∈ front ++ b :: rest :=
      heq ▸ mem_append_right _ mem_cons_self
    rcases mem_append.1 hmem with hmem | hmem
    · exact absurd hc (hfront b' hmem c hb')
    · rcases mem_cons.1 hmem with rfl | hmem
      · rw [← capture?_literal_eq hb', hl]
      · have hvalued := hrest b' hmem ((capture?_name_pos hb').1.symm.trans hc)
        rw [isValued_of_capture? hb'] at hvalued
        cases hvalued
  · intro hl
    obtain ⟨c, hcapture⟩ := capture?_of_literalOf? (hlast.name_eq ▸ hname) hl
    have hc : c.name = name := (capture?_name_pos hcapture).1.trans hlast.name_eq
    exact ⟨c, ⟨hc, front, b, rest, rfl, hcapture, hfront⟩,
      (capture?_literal_eq hcapture).trans hl⟩

end

/-- **A plan keeps the first literal of a name.**  The function literal that `planPersistence`
keeps for a name is that of its `FirstWrite`, the first binding of the entry function for
which `capture?` finds something.  A name whose `LastWrite` is also the first that counts
keeps what it was given last: the function literal, verbatim, or none. -/
theorem literal_of_first_write {program : Text} {entry : EntryPoint}
    (hentry : (Source.ofText program).entryPoint = some entry) :
    ∃ plan, planPersistence program = .ok (some plan) ∧ ∀ name : Text,
      (∀ source, plan.literals.find? name = some source ↔
        ∃ c, FirstWrite (.ofText program) (planned (.ofText program) entry) name c ∧
          c.literal = some source) ∧
      ∀ front b, name ≠ blankName → LastWrite (planned (.ofText program) entry) name front b →
        (∀ d ∈ front, ∀ c, capture? (.ofText program) d = .ok (some c) → c.name ≠ name) →
        plan.literals.find? name = literalOf? (.ofText program) b := by
  obtain ⟨plan?, hplan⟩ := planPersistence_ok program
  obtain ⟨plan, rfl⟩ : ∃ plan, plan? = some plan := by
    simp only [planPersistence_eq, hentry] at hplan
    obtain ⟨found, -, hplan⟩ := Checked.bind_eq_ok.1 hplan
    obtain ⟨text, -, hplan⟩ := Checked.bind_eq_ok.1 hplan
    cases hplan
    exact ⟨_, rfl⟩
  have hsound := sound_of_plan hplan
  have hkeys := hsound.nodup.sublist hsound.keys
  refine ⟨plan, hplan, fun name => ⟨fun source => ?_, fun front b hname hlast hfront => ?_⟩⟩
  · rw [Literals.find?, lookup_eq_some_iff_mem hkeys, mem_literals_iff hentry hplan]
  · exact find?_literals_of_lastWrite hentry hplan hname hlast hfront

/-- A variable that is declared without a value keeps the function literal that it is
given. -/
theorem literal_of_first_write_declared :
    let program : Text := "package main\n\nfunc main() \x7b\n\tvar f func() int\n" ++
      "\tf = func() int \x7b return 2 \x7d\n\x7d\n"
    (Source.ofText program).entryPoint = some ⟨7, 26, 27, 75⟩ ∧
      ∃ plan, planPersistence program = .ok (some plan) ∧
        plan.literals.find? "f" = some "func() int \x7b return 2 \x7d".toList := by
  intro program
  have hentry : (Source.ofText program).entryPoint = some ⟨7, 26, 27, 75⟩ := by decide +kernel
  have hplanned : planned (.ofText program) ⟨7, 26, 27, 75⟩ =
      [⟨"f", 33, none, none, true⟩, ⟨"f", 47, some ⟨51, 74⟩, some ⟨51, 74⟩, false⟩] := by
    decide +kernel
  obtain ⟨plan, hplan, hliterals⟩ := literal_of_first_write hentry
  refine ⟨hentry, plan, hplan, ?_⟩
  rw [(hliterals "f").2 [⟨"f", 33, none, none, true⟩]
    ⟨"f", 47, some ⟨51, 74⟩, some ⟨51, 74⟩, false⟩ (by decide)
    ⟨rfl, rfl, [], hplanned, by simp⟩ ?_]
  · decide +kernel
  · intro d hd c hc
    rw [mem_singleton.1 hd] at hc
    cases hc

/-- A function literal that is bound over another is not the one that is kept. -/
theorem not_last_write_wins :
    let program : Text :=
      "package main\n\nfunc main() \x7b\n\tf := func() int \x7b return 1 \x7d\n" ++
        "\tf = func() int \x7b return 2 \x7d\n\x7d\n"
    ∃ entry plan front b, (Source.ofText program).entryPoint = some entry ∧
      planPersistence program = .ok (some plan) ∧
      LastWrite (planned (.ofText program) entry) "f" front b ∧
      literalOf? (.ofText program) b = some "func() int \x7b return 2 \x7d".toList ∧
      plan.literals.find? "f" = some "func() int \x7b return 1 \x7d".toList := by
  intro program
  have hplanned : planned (.ofText program) ⟨7, 30, 27, 87⟩ =
      [⟨"f", 29, some ⟨34, 57⟩, some ⟨34, 57⟩, true⟩,
        ⟨"f", 59, some ⟨63, 86⟩, some ⟨63, 86⟩, false⟩] := by
    decide +kernel
  have heval : (planPersistence program).toOption.join.map (·.literals.find? "f") =
      some (some "func() int \x7b return 1 \x7d".toList) := by
    decide +kernel
  cases hplan : planPersistence program with
  | error e =>
    rw [hplan] at heval
    cases heval
  | ok plan? =>
    cases plan? with
    | none =>
      rw [hplan] at heval
      cases heval
    | some plan =>
      rw [hplan] at heval
      exact ⟨⟨7, 30, 27, 87⟩, plan, [⟨"f", 29, some ⟨34, 57⟩, some ⟨34, 57⟩, true⟩],
        ⟨"f", 59, some ⟨63, 86⟩, some ⟨63, 86⟩, false⟩, by decide +kernel, rfl,
        ⟨rfl, rfl, [], hplanned, by simp⟩, by decide +kernel, Option.some.inj heval⟩

end PersistencePlan

end Notebook
