import Mathlib.Data.List.Find
import Mathlib.Order.Bounds.Defs
import Notebook.Proofs.DiagnosedLines
import Notebook.Proofs.InputRows
import Notebook.Proofs.Probes

/-!
# What a callee depends on

Of the statements before a call a probe copies those that bring a value back and that the
callee needs.  They are found by a queue of names: for each name the last statement that binds
it is taken in, and the identifiers in that statement are queued.  What comes out is the least
set of statements that has the last one for the first name of the callee, and with each of its
statements the last one for each name in it.

A name is looked up in the text of a statement that was cut out of the program and read again;
its identifiers there are those among the tokens of the statement, also where the statement
ends with a semicolon that only the text behind it implied.

## Main statements

* `Source.identifiers_textAt`: the identifiers in the text of a statement
* `Replay.isLeast_closureFrom`: what the queue takes in
* `ArityQuery.probeProgram_least`: what a probe copies
-/

namespace Notebook

open Lexer List

/-! ### Identifiers of a statement -/

/-- The identifiers among tokens. -/
def Token.namesOf (ts : List Token) : List Text :=
  (ts.filter fun t => t.kind == .ident).map Token.lexeme

/-- The identifiers in the text of a statement are those among its tokens. -/
theorem Source.identifiers_textAt {s : Source} {st : Statement} (hst : st ∈ s.statements) :
    identifiers (s.textAt st) = Token.namesOf (s.tokensOf st) := by
  have hrun : s.tokensOf st <:+: tokenize s.text :=
    s.tokens_eq ▸ s.segment_infix st.first st.last
  obtain ⟨u, here, hslice, hspelled⟩ :=
    exists_text_of_extent hrun (extent_tokensOf (standsIn_of_mem hst).1)
  have htext : s.textAt st = u := Except.ok.inj ((statementText_eq hst).symm.trans hslice)
  have hident : ∀ k : Token, (k.kind == .ident) = true → k.kind = .ident := fun k => eq_of_beq
  rw [htext, identifiers, Token.namesOf,
    ← filter_filter_isSpelled hident hrun.subset, hspelled, filter_map, map_map,
    ← filter_filter_isSpelled hident (List.Subset.refl (tokenize u))]
  rfl

/-! ### Names in a queue -/

namespace Replay

/-- Places with everything that they depend on: the last replay of each name in the queue, and
of each name that one of their replays mentions. -/
structure Closed (replays : List Replay) (queue : List Text) (places : Set Nat) : Prop where
  queued : ∀ n ∈ queue, ∀ i ∈ lastBinding? replays n, i ∈ places
  mentioned : ∀ i ∈ places, ∀ r ∈ replays[i]?, ∀ n ∈ r.mentions, n ≠ blankName →
    ∀ j ∈ lastBinding? replays n, j ∈ places

/-- How far the work is: each name that was ever queued is still there or has its replay taken
in, and what a replay that is taken in mentions was queued. -/
structure Frontier (replays : List Replay) (queue wanted : List Text) (included : List Nat) :
    Prop where
  reached : ∀ n ∈ wanted, n ∈ queue ∨ ∀ i ∈ lastBinding? replays n, i ∈ included
  mentioned : ∀ i ∈ included, ∀ r ∈ replays[i]?, ∀ n ∈ r.mentions, n ≠ blankName → n ∈ wanted

variable {replays : List Replay} {queue wanted : List Text} {included : List Nat}

theorem mem_fresh {n : Text} {ns : List Text} :
    n ∈ fresh wanted ns ↔ n ∈ ns ∧ n ≠ blankName ∧ n ∉ wanted := by
  induction ns generalizing wanted with
  | nil => simp [fresh]
  | cons m ns ih =>
    rw [fresh]
    split
    next hm =>
      rw [ih, mem_cons]
      constructor
      · exact fun h => ⟨.inr h.1, h.2⟩
      · rintro ⟨rfl | hn, hblank, hwanted⟩
        · exact absurd hm (not_or.2 ⟨hblank, hwanted⟩)
        · exact ⟨hn, hblank, hwanted⟩
    next hm =>
      obtain ⟨hblank, hwanted⟩ := not_or.1 hm
      rw [mem_cons, ih, mem_cons, mem_append, mem_singleton]
      constructor
      · rintro (rfl | ⟨hn, hnblank, hnew⟩)
        · exact ⟨.inl rfl, hblank, hwanted⟩
        · exact ⟨.inr hn, hnblank, fun h => hnew (.inl h)⟩
      · rintro ⟨rfl | hn, hnblank, hnew⟩
        · exact .inl rfl
        · by_cases hnm : n = m
          · exact .inl hnm
          · exact .inr ⟨hn, hnblank, not_or.2 ⟨hnew, hnm⟩⟩

/-- What the replay at a place mentions, and nothing if there is none. -/
theorem mem_mentions {i : Nat} {n : Text} :
    n ∈ (replays[i]?.map (·.mentions)).getD [] ↔ ∃ r ∈ replays[i]?, n ∈ r.mentions := by
  cases replays[i]? <;> simp

/-- The queue takes in nothing but what is depended on. -/
theorem closureFrom_subset {places : Set Nat} (h : Closed replays queue places)
    (hincluded : ∀ i ∈ included, i ∈ places) :
    ∀ i ∈ closureFrom replays queue wanted included, i ∈ places := by
  fun_induction closureFrom replays queue wanted included with
  | case1 => exact hincluded
  | case2 wanted included name queue hnone ih =>
    exact ih ⟨fun n hn => h.queued n (mem_cons_of_mem _ hn), h.mentioned⟩ hincluded
  | case3 wanted included name queue i hi hmem ih =>
    exact ih ⟨fun n hn => h.queued n (mem_cons_of_mem _ hn), h.mentioned⟩ hincluded
  | case4 wanted included name queue i hi hmem new ih =>
    have hplace : i ∈ places := h.queued name mem_cons_self i hi
    refine ih ⟨fun n hn => ?_, h.mentioned⟩ (forall_mem_cons.2 ⟨hplace, hincluded⟩)
    rcases mem_append.1 hn with hn | hn
    · exact h.queued n (mem_cons_of_mem _ hn)
    · obtain ⟨hn, hblank, -⟩ := mem_fresh.1 hn
      obtain ⟨r, hr, hn⟩ := mem_mentions.1 hn
      exact h.mentioned i hplace r hr n hn hblank

/-- A name leaves the queue when its replay is taken in. -/
theorem Frontier.reached_tail {name : Text} {included' : List Nat}
    (h : Frontier replays (name :: queue) wanted included) (hsubset : included ⊆ included')
    (hname : ∀ i ∈ lastBinding? replays name, i ∈ included') :
    ∀ n ∈ wanted, n ∈ queue ∨ ∀ i ∈ lastBinding? replays n, i ∈ included' := by
  intro n hn
  rcases h.reached n hn with hn | hn
  · rcases mem_cons.1 hn with rfl | hn
    · exact .inr hname
    · exact .inl hn
  · exact .inr fun i hi => hsubset (hn i hi)

/-- The work goes on until nothing is queued, and forgets no name. -/
theorem Frontier.closureFrom (h : Frontier replays queue wanted included) :
    ∃ wanted', wanted ⊆ wanted' ∧
      Frontier replays [] wanted' (closureFrom replays queue wanted included) := by
  fun_induction Replay.closureFrom replays queue wanted included with
  | case1 wanted included => exact ⟨wanted, List.Subset.refl _, h⟩
  | case2 wanted included name queue hnone ih =>
    exact ih ⟨h.reached_tail (List.Subset.refl _) (by simp [hnone]), h.mentioned⟩
  | case3 wanted included name queue i hi hmem ih =>
    exact ih ⟨h.reached_tail (List.Subset.refl _) (by simp [hi, hmem]), h.mentioned⟩
  | case4 wanted included name queue i hi hmem new ih =>
    have hreached := h.reached_tail (subset_cons_self i included) (by simp [hi])
    have hfrontier : Frontier replays (queue ++ new) (wanted ++ new) (i :: included) := by
      refine ⟨fun n hn => ?_, fun j hj r hr n hn hblank => ?_⟩
      · rcases mem_append.1 hn with hn | hn
        · exact (hreached n hn).imp_left (mem_append_left _)
        · exact .inl (mem_append_right _ hn)
      · rcases mem_cons.1 hj with rfl | hj
        · by_cases hwanted : n ∈ wanted
          · exact mem_append_left _ hwanted
          · exact mem_append_right _
              (mem_fresh.2 ⟨mem_mentions.2 ⟨r, hr, hn⟩, hblank, hwanted⟩)
        · exact mem_append_left _ (h.mentioned j hj r hr n hn hblank)
    obtain ⟨wanted', hsubset, hdone⟩ := ih hfrontier
    exact ⟨wanted', fun n hn => hsubset (mem_append_left _ hn), hdone⟩

/-- The queue takes in the least places that have everything they depend on. -/
theorem isLeast_closureFrom (replays : List Replay) (queue : List Text) :
    IsLeast {places | Closed replays queue places}
      {i | i ∈ closureFrom replays queue queue []} := by
  constructor
  · have hstart : Frontier replays queue queue [] :=
      ⟨fun n hn => .inl hn, fun i hi => by cases hi⟩
    obtain ⟨wanted, hsubset, hdone⟩ := hstart.closureFrom
    have htaken : ∀ n ∈ wanted, ∀ i ∈ lastBinding? replays n,
        i ∈ closureFrom replays queue queue [] :=
      fun n hn => (hdone.reached n hn).resolve_left (not_mem_nil)
    exact ⟨fun n hn => htaken n (hsubset hn),
      fun i hi r hr n hn hblank => htaken n (hdone.mentioned i hi r hr n hn hblank)⟩
  · intro places hplaces i hi
    exact closureFrom_subset hplaces (fun j hj => by cases hj) i hi

/-- The last replay that binds a name, by its place. -/
theorem getLast?_filter_names {α : Type} (f : α → Replay) (n : Text) (xs : List α) :
    (xs.filter fun x => n ∈ (f x).names).getLast? =
      (lastBinding? (xs.map f) n).bind (xs[·]?) := by
  induction xs using reverseRecOn with
  | nil => rfl
  | append_singleton xs x ih =>
    have hlast : lastBinding? ((xs ++ [x]).map f) n =
        if n ∈ (f x).names then some xs.length else lastBinding? (xs.map f) n := by
      simp only [lastBinding?, length_map, length_append, length_singleton,
        range_succ, reverse_append, reverse_singleton, singleton_append,
        find?_cons]
      have hx : ((xs ++ [x]).map f)[xs.length]?.any (fun r => n ∈ r.names) =
          decide (n ∈ (f x).names) := by
        simp
      rw [hx]
      by_cases hn : n ∈ (f x).names
      · simp [hn]
      · simp only [hn, decide_false, if_false]
        refine find?_congr fun i hi => ?_
        have hi : i < xs.length := by simpa using hi
        rw [map_append, getElem?_append_left (by simpa using hi)]
    rw [hlast, filter_append, getLast?_append]
    by_cases hn : n ∈ (f x).names
    · simp [hn]
    · have hlt : ∀ i, lastBinding? (xs.map f) n = some i → (xs ++ [x])[i]? = xs[i]? := by
        intro i hi
        have := lastBinding?_lt hi
        rw [getElem?_append_left (by simpa using this)]
      simp only [hn, if_false, ih]
      cases hi : lastBinding? (xs.map f) n with
      | none => simp [hn]
      | some i => simp [hn, hlt i hi]

/-- Members of a list of which replays are made, picked by what the queue takes in. -/
def needed {α : Type} (f : α → Replay) (xs : List α) (name? : Option Text) : List α :=
  ((List.range xs.length).filter
    (· ∈ closureFrom (xs.map f) name?.toList name?.toList [])).filterMap (xs[·]?)

theorem map_needed {α : Type} (f : α → Replay) (xs : List α) (name? : Option Text) :
    (needed f xs name?).map f = closure (xs.map f) name? := by
  simp only [needed, closure, map_filterMap, length_map, getElem?_map]

theorem needed_sublist {α : Type} (f : α → Replay) (xs : List α) (name? : Option Text) :
    (needed f xs name?).Sublist xs := by
  refine Sublist.trans (Sublist.filterMap _ filter_sublist) ?_
  rw [filterMap_range_getElem?]

theorem mem_needed {α : Type} {f : α → Replay} {xs : List α} {name? : Option Text} {x : α} :
    x ∈ needed f xs name? ↔
      ∃ i ∈ closureFrom (xs.map f) name?.toList name?.toList [], xs[i]? = some x := by
  simp only [needed, mem_filterMap, mem_filter, mem_range, decide_eq_true_eq]
  constructor
  · rintro ⟨i, ⟨-, hi⟩, hx⟩
    exact ⟨i, hi, hx⟩
  · rintro ⟨i, hi, hx⟩
    exact ⟨i, ⟨(List.getElem?_eq_some_iff.1 hx).1, hi⟩, hx⟩

instance (s : Source) (st : Statement) : Decidable (Brings s st) :=
  decidable_of_iff _ brings_iff.symm

end Replay

/-! ### Statements -/

namespace Source

/-- The statements that bring a value back. -/
def replayStatements (s : Source) : List Statement :=
  s.statements.filter fun st => Replay.Brings s st

/-- The names that a statement binds. -/
def boundNames (s : Source) (st : Statement) : List Text :=
  (s.bindings st).map (·.name)

/-- The last statement that brings a value back and binds a name. -/
def lastReplay? (s : Source) (name : Text) : Option Statement :=
  (s.replayStatements.filter fun st => name ∈ s.boundNames st).getLast?

/-- Statements with everything that they depend on: the last one that brings back the first
name of a callee, if it has one, and the last one for each identifier in one of them. -/
structure DependencyClosed (s : Source) (head? : Option Text) (sts : Set Statement) :
    Prop where
  head : ∀ n ∈ head?, ∀ st ∈ s.lastReplay? n, st ∈ sts
  mentioned : ∀ st ∈ sts, ∀ t ∈ s.tokensOf st, t.kind = .ident → t.lexeme ≠ blankName →
    ∀ st' ∈ s.lastReplay? t.lexeme, st' ∈ sts

/-- The replay that a statement is if it brings a value back. -/
def replayAt (s : Source) (st : Statement) : Replay :=
  ⟨s.textAt st, s.boundNames st, identifiers (s.textAt st)⟩

variable {s : Source} {st : Statement}

theorem ofStatement?_eq (hst : st ∈ s.statements) :
    Replay.ofStatement? s st =
      .ok (if Replay.Brings s st then some (s.replayAt st) else none) := by
  obtain ⟨replays, hreplays⟩ :=
    Replay.isReplay_ok fun b (hb : b ∈ s.bindings st) => bindings_fit hb
  simp only [Replay.ofStatement?_eq (standsIn_of_mem hst).1, hreplays, bind, Except.bind,
    statementText_eq hst, Replay.brings_iff, Except.ok.injEq]
  cases replays <;> rfl

theorem lastReplay?_eq (s : Source) (name : Text) :
    s.lastReplay? name = (Replay.lastBinding? (s.replayStatements.map s.replayAt) name).bind
      (s.replayStatements[·]?) :=
  Replay.getLast?_filter_names s.replayAt name s.replayStatements

/-- The identifiers of a statement, as they are looked up. -/
theorem mem_mentions_replayAt (hst : st ∈ s.statements) {n : Text} :
    n ∈ (s.replayAt st).mentions ↔ ∃ t ∈ s.tokensOf st, t.kind = .ident ∧ t.lexeme = n := by
  rw [replayAt, identifiers_textAt hst, Token.namesOf]
  simp only [mem_map, mem_filter, beq_iff_eq, and_assoc]

/-- The statements that are needed are the least that have everything they depend on. -/
theorem isLeast_needed (s : Source) (head? : Option Text) :
    IsLeast {sts | s.DependencyClosed head? sts}
      {st | st ∈ Replay.needed s.replayAt s.replayStatements head?} := by
  obtain ⟨hclosed, hleast⟩ :=
    Replay.isLeast_closureFrom (s.replayStatements.map s.replayAt) head?.toList
  have hlook : ∀ {n st}, st ∈ s.lastReplay? n → ∃ i,
      i ∈ Replay.lastBinding? (s.replayStatements.map s.replayAt) n ∧
        s.replayStatements[i]? = some st := by
    intro n st hst
    rw [lastReplay?_eq] at hst
    exact Option.bind_eq_some_iff.1 hst
  have hmem : ∀ {i st}, s.replayStatements[i]? = some st → st ∈ s.statements := fun hi =>
    (mem_filter.1 (mem_of_getElem? hi)).1
  constructor
  · refine ⟨fun n hn st hst => ?_, fun st hst t ht hident hblank st' hst' => ?_⟩
    · obtain ⟨i, hi, hat⟩ := hlook hst
      exact Replay.mem_needed.2 ⟨i, hclosed.queued n (Option.mem_toList.2 hn) i hi, hat⟩
    · obtain ⟨i, hi, hat⟩ := Replay.mem_needed.1 hst
      obtain ⟨j, hj, hat'⟩ := hlook hst'
      refine Replay.mem_needed.2 ⟨j, ?_, hat'⟩
      exact hclosed.mentioned i hi (s.replayAt st) (by simp [hat]) t.lexeme
        ((mem_mentions_replayAt (hmem hat)).2 ⟨t, ht, hident, rfl⟩) hblank j hj
  · intro sts hsts st hst
    obtain ⟨i, hi, hat⟩ := Replay.mem_needed.1 hst
    -- The places whose statements are among the given ones have everything they depend on.
    have hplaces : Replay.Closed (s.replayStatements.map s.replayAt) head?.toList
        {i | ∀ st ∈ s.replayStatements[i]?, st ∈ sts} := by
      have hlast : ∀ {n j st}, j ∈ Replay.lastBinding? (s.replayStatements.map s.replayAt) n →
          st ∈ s.replayStatements[j]? → st ∈ s.lastReplay? n := by
        intro n j st hj hst
        rw [lastReplay?_eq]
        exact Option.bind_eq_some_iff.2 ⟨j, hj, hst⟩
      refine ⟨fun n hn j hj st hst => ?_, fun j hj r hr n hn hblank k hk st hst => ?_⟩
      · exact hsts.head n (Option.mem_toList.1 hn) st (hlast hj hst)
      · obtain ⟨st', hat', rfl⟩ : ∃ st', s.replayStatements[j]? = some st' ∧
          s.replayAt st' = r := by
          simpa using hr
        obtain ⟨t, ht, hident, rfl⟩ := (mem_mentions_replayAt (hmem hat')).1 hn
        exact hsts.mentioned st' (hj st' hat') t ht hident hblank st (hlast hk hst)
    exact hleast hplaces hi st hat

theorem nodup_statements (s : Source) : s.statements.Nodup := by
  refine (pairwise_precedes s 0 s.tokens.length).imp_of_mem fun {a b} ha _ hlt => ?_
  rintro rfl
  have := (standsIn_of_mem ha).1.first_le_last
  have := hlt.last_lt
  omega

end Source

namespace ArityQuery

variable {q : ArityQuery}

theorem replays_eq {before : Text} (h : q.preceding = .ok before) :
    q.replays =
      .ok ((Source.ofText before).replayStatements.map (Source.ofText before).replayAt) := by
  have hall := Checked.mapM_of_forall₂ (f := Replay.ofStatement? (.ofText before))
    (forall₂_same.2 fun st hst => Source.ofStatement?_eq (s := .ofText before) hst)
  simp only [replays_eq_mapM, h, bind, Except.bind, hall, pure, Except.pure,
    Source.replayStatements]
  rw [filterMap_map, ← filterMap_eq_map, filterMap_filter]
  simp

/-- **What a probe copies is the least it needs.**  Of the statements before the call,
`probeProgram` copies the least set that is `DependencyClosed`: it has the last statement that
brings back the first name of the callee, and with each of its statements the last one for
each identifier in it.  Each is copied once, in source order, and behind them stands a discard
for each of the `boundNames`. -/
theorem probeProgram_least (h : q.Placed) :
    ∃ (front before : Text) (needed : List Statement) (texts : List Text),
      Span.slice ⟨0, q.bodyStart⟩ q.program = .ok front ∧ q.preceding = .ok before ∧
      IsLeast {sts | (Source.ofText before).DependencyClosed q.head? sts} {st | st ∈ needed} ∧
      needed.Sublist (Source.ofText before).statements ∧ needed.Nodup ∧
      (∀ st ∈ needed, Replay.Brings (.ofText before) st) ∧
      needed.mapM (Source.ofText before).statementText = .ok texts ∧
      q.probeProgram =
        .ok (probeText front texts (needed.flatMap (Source.ofText before).boundNames)
          q.callee.trim) := by
  obtain ⟨before, hbefore⟩ := preceding_ok h
  obtain ⟨front, hfront⟩ : ∃ front, Span.slice ⟨0, q.bodyStart⟩ q.program = .ok front :=
    Span.Fits.slice ⟨Nat.zero_le _, Text.isBoundary_zero _, h.start⟩
  let s := Source.ofText before
  let needed := Replay.needed s.replayAt s.replayStatements q.head?
  have hneeded : needed.Sublist s.replayStatements := Replay.needed_sublist ..
  have hsublist : needed.Sublist s.statements := hneeded.trans filter_sublist
  have htexts : needed.mapM s.statementText = .ok (needed.map s.textAt) :=
    Checked.mapM_of_forall₂ (forall₂_same.2 fun st hst =>
      Source.statementText_eq (hsublist.subset hst))
  refine ⟨front, before, needed, needed.map s.textAt, hfront, hbefore,
    Source.isLeast_needed s q.head?, hsublist, s.nodup_statements.sublist hsublist,
    fun st hst => ?_, htexts, ?_⟩
  · simpa using (mem_filter.1 (hneeded.subset hst)).2
  · rw [probeProgram_eq (replays_eq hbefore) hfront, ← Replay.map_needed, map_map,
      flatMap_map]
    rfl

/-- A function literal behind the value that it uses: the probe for a call of it copies it. -/
theorem probeProgram_least_literal :
    let before : Text :=
      "\n\tk, _ := _Deserialize[T](\"k\")\n\tf := func(x T) T \x7b return k * x \x7d\n" ++
        "\tg()\n\t"
    let program : Text := "func main() \x7b" ++ before ++ "f(2) // :INPUT\n\x7d\n"
    let q : ArityQuery := ⟨"f", program, 13, 85⟩
    q.Placed ∧ q.preceding = .ok before ∧ q.head? = some "f".toList ∧
      ∃ needed : List Statement,
        IsLeast {sts | (Source.ofText before).DependencyClosed q.head? sts}
          {st | st ∈ needed} ∧
        ∃ st ∈ needed, st.span = ⟨32, 65⟩ := by
  intro before program q
  have hplaced : q.Placed := by
    unfold Placed
    decide +kernel
  have hbefore : q.preceding = .ok before := by decide +kernel
  have hhead : q.head? = some "f".toList := by decide +kernel
  have hlast : ((Source.ofText before).lastReplay? "f").map Statement.span =
      some ⟨32, 65⟩ := by
    decide +kernel
  obtain ⟨-, before', needed, -, -, hbefore', hleast, -⟩ := probeProgram_least hplaced
  cases Except.ok.inj (hbefore.symm.trans hbefore')
  obtain ⟨st, hst, hspan⟩ := Option.map_eq_some_iff.1 hlast
  exact ⟨hplaced, hbefore, hhead, needed, hleast, st, hleast.1.head _ hhead st hst, hspan⟩

end ArityQuery

end Notebook
