import Notebook.Proofs.Statements
import Notebook.Source.Binding

/-!
# Extents inside a statement

Whatever is read from a statement is the extent of a part of its tokens: the expression that a
call calls, the value of a binding, all values together.  Parts of placed tokens are placed,
so all these extents fit the text, whether the statement makes sense or not.

## Main statements

* `Source.extent_fits`: the extent of placed tokens
* `Source.callee_fits`: the expression that a call calls
* `Source.bindings_fit`: the values of bindings
-/

namespace Notebook

open List

variable {b : Binding} {ts : List Token} {s : Source} {span : Span} {st : Statement}
  {t : Text}

/-- A binding whose values can be read in a text.  A value of its own is one of them. -/
structure Binding.FitsIn (b : Binding) (t : Text) : Prop where
  value : ∀ v, b.value = some v → v.Fits t
  rhs : ∀ r, b.rhs = some r → r.Fits t
  own : b.value.isSome = true → b.rhs.isSome = true

/-- A binding whose values are read off tokens: each extent is that of a run of them. -/
structure Binding.ReadOff (b : Binding) (ts : List Token) : Prop where
  value : ∀ v, b.value = some v → ∃ p, p <:+: ts ∧ Source.extent p = some v
  rhs : ∃ values, values <:+: ts ∧ b.rhs = Source.extent values
  own : b.value.isSome = true → b.rhs.isSome = true

theorem Binding.ReadOff.mono {us : List Token} (h : b.ReadOff ts) (hts : ts <:+: us) :
    b.ReadOff us where
  value v hv := by
    obtain ⟨p, hp, hextent⟩ := h.value v hv
    exact ⟨p, hp.trans hts, hextent⟩
  rhs := by
    obtain ⟨values, hvalues, hextent⟩ := h.rhs
    exact ⟨values, hvalues.trans hts, hextent⟩
  own := h.own

/-- The extent of placed tokens fits the text. -/
theorem Source.extent_fits (h : Placed t ts) (hspan : extent ts = some span) :
    span.Fits t := by
  simp only [extent, Option.bind_eq_bind, Option.bind_eq_some_iff, Option.pure_def,
    Option.some.injEq] at hspan
  obtain ⟨a, ha, b, hb, rfl⟩ := hspan
  rw [head?_eq_getElem?] at ha
  rw [getLast?_eq_getElem?] at hb
  exact h.fits ha hb (Nat.zero_le _)

/-- What is read off placed tokens can be read in the text. -/
theorem Binding.ReadOff.fitsIn (h : b.ReadOff ts) (hts : Placed t ts) :
    b.FitsIn t where
  value v hv := by
    obtain ⟨p, hp, hextent⟩ := h.value v hv
    exact Source.extent_fits (hts.sublist hp.sublist) hextent
  rhs r hr := by
    obtain ⟨values, hvalues, hextent⟩ := h.rhs
    exact Source.extent_fits (hts.sublist hvalues.sublist) (hextent.symm.trans hr)
  own := h.own

namespace Source

theorem segment_infix (s : Source) (first last : Nat) : s.segment first last <:+: s.tokens :=
  (List.take_prefix _ _).isInfix.trans (drop_suffix _ _).isInfix

theorem segment_sublist (s : Source) (first last : Nat) :
    (s.segment first last).Sublist s.tokens :=
  (s.segment_infix first last).sublist

theorem segment_placed (s : Source) (first last : Nat) :
    Placed s.text (s.segment first last) :=
  s.placed.sublist (s.segment_sublist first last)

/-- The extent of a statement is that of its tokens. -/
theorem extent_tokensOf (h : st.StandsIn s.tokens) :
    extent (s.tokensOf st) = some st.span := by
  obtain ⟨a, b, ha, hb, hspan, -⟩ := h.extent
  have hle := h.first_le_last
  have hhead : (s.tokensOf st).head? = some a := by
    rw [tokensOf, segment, head?_take, if_neg (by omega), head?_drop, ha]
  have hlast : (s.tokensOf st).getLast? = some b := by
    rw [tokensOf, segment, getLast?_take, if_neg (by omega), getElem?_drop,
      show st.first + (st.last + 1 - st.first - 1) = st.last by omega, hb, Option.some_or]
  rw [extent, hhead, hlast, hspan]
  rfl

/-! ### Calls -/

theorem calleeSpan_fits (h : Placed t ts) (hspan : calleeSpan ts = some span) :
    span.Fits t := by
  simp only [calleeSpan, Option.bind_eq_bind, Option.bind_eq_some_iff] at hspan
  obtain ⟨behind, -, hspan⟩ := hspan
  split at hspan
  · exact extent_fits (h.sublist (take_sublist _ _)) hspan
  · cases hspan

theorem leadingKind?_ne_call (s : Source) (st : Statement) (callee : Span) :
    s.leadingKind? st ≠ some (.call callee) := by
  unfold leadingKind? leadingKindFrom?
  split
  case h_8 => split <;> try split
              all_goals simp
  all_goals try split
  all_goals simp

/-- The expression that a call calls can be read. -/
theorem callee_fits {callee : Span} (h : s.classify st = .call callee) :
    callee.Fits s.text := by
  unfold classify innerKind at h
  split at h
  next k hk =>
    subst h
    exact absurd hk (leadingKind?_ne_call s st callee)
  next =>
    simp only at h
    repeat' split at h
    all_goals cases h
    -- Of all branches only the one for calls is left.
    next hcallee => exact calleeSpan_fits (s.segment_placed _ _) hcallee

/-! ### Bindings -/

/-- The parts between commas are runs of the tokens, and the first one stands at their
front. -/
theorem infix_cutCommas (depth : Nat) (ts : List Token) :
    ∃ p ps, cutCommas depth ts = p :: ps ∧ p <+: ts ∧ ∀ q ∈ ps, q <:+: ts := by
  induction ts generalizing depth with
  | nil => exact ⟨[], [], rfl, prefix_rfl, by simp⟩
  | cons t ts ih =>
    have hcons : ts <:+: t :: ts := (suffix_cons t ts).isInfix
    rw [cutCommas]
    split
    · obtain ⟨p, ps, hcut, hp, hps⟩ := ih depth
      refine ⟨[], _, rfl, List.nil_prefix, fun q hq => ?_⟩
      rw [hcut] at hq
      rcases mem_cons.1 hq with rfl | hq
      · exact hp.isInfix.trans hcons
      · exact (hps q hq).trans hcons
    · obtain ⟨p, ps, hcut, hp, hps⟩ := ih (depthAfter depth t.kind)
      rw [hcut]
      exact ⟨t :: p, ps, rfl, cons_prefix_cons.2 ⟨rfl, hp⟩, fun q hq =>
        (hps q hq).trans hcons⟩

theorem infix_of_mem_commaParts {p : List Token} (h : p ∈ commaParts ts) : p <:+: ts := by
  obtain ⟨q, qs, hcut, hq, hqs⟩ := infix_cutCommas 0 ts
  have hmem := (mem_filter.1 h).1
  rw [hcut] at hmem
  rcases mem_cons.1 hmem with rfl | hmem
  · exact hq.isInfix
  · exact hqs p hmem

theorem behindAssign_suffix (depth : Nat) (ts : List Token) :
    behindAssign depth ts <:+ ts := by
  induction ts generalizing depth with
  | nil => exact suffix_rfl
  | cons t ts ih =>
    rw [behindAssign]
    split
    · exact suffix_cons t ts
    · exact (ih _).trans (suffix_cons t ts)

/-- An assignment is cut in its two sides and what stands between them. -/
theorem eq_of_cutAssignment {depth : Nat} {left right : List Token} {op : Token}
    (h : cutAssignment depth ts = some (left, op, right)) : ts = left ++ op :: right := by
  induction ts generalizing depth left with
  | nil => simp [cutAssignment] at h
  | cons t ts ih =>
    rw [cutAssignment] at h
    -- How deep the token stands plays no part, and would be split first.
    generalize (if t.kind.closes then depth - 1 else depth) = before at h
    split at h
    · cases h
      rfl
    · obtain ⟨⟨l, o, r⟩, hcut, heq⟩ := Option.map_eq_some_iff.1 h
      cases heq
      rw [ih hcut]
      rfl

theorem isSome_extent : (extent ts).isSome = true ↔ ts ≠ [] := by
  cases ts with
  | nil => simp [extent]
  | cons t ts => simp [extent, getLast?_cons]

theorem readOff_of_mem_pairValues {names values : List Token} {define : Bool}
    (hb : b ∈ pairValues names values define) : b.ReadOff values := by
  unfold pairValues at hb
  simp only at hb
  split at hb
  · obtain ⟨n, p, hp, rfl⟩ : ∃ n : Token, ∃ p ∈ commaParts values,
        b = ⟨n.lexeme, n.pos, extent p, extent values, define⟩ := by
      rw [← map_uncurry_zip_eq_zipWith] at hb
      obtain ⟨⟨n, p⟩, hmem, rfl⟩ := mem_map.1 hb
      exact ⟨n, p, (of_mem_zip hmem).2, rfl⟩
    have hpart := infix_of_mem_commaParts hp
    refine ⟨fun v hv => ⟨p, hpart, hv⟩, ⟨values, infix_rfl, rfl⟩, fun hv => ?_⟩
    refine isSome_extent.2 ?_
    rintro rfl
    exact isSome_extent.1 hv (infix_nil.1 hpart)
  · obtain ⟨n, -, rfl⟩ := mem_map.1 hb
    exact ⟨by simp, ⟨values, infix_rfl, rfl⟩, by simp⟩

theorem readOff_of_mem_specBindings (hb : b ∈ specBindings ts) : b.ReadOff ts :=
  (readOff_of_mem_pairValues hb).mono (behindAssign_suffix 0 ts).isInfix

theorem readOff_of_mem_assignmentBindings (hb : b ∈ assignmentBindings ts) :
    b.ReadOff ts := by
  unfold assignmentBindings at hb
  split at hb
  · cases hb
  next left op right hcut =>
    have hright : right <:+: ts := by
      rw [eq_of_cutAssignment hcut]
      exact ((suffix_cons op right).trans (suffix_append left _)).isInfix
    split at hb
    · cases hb
    · split at hb
      · cases hb
      · exact (readOff_of_mem_pairValues hb).mono hright

/-- The values of a statement's bindings are runs of the tokens. -/
theorem readOff_of_mem_bindings (hb : b ∈ s.bindings st) : b.ReadOff s.tokens := by
  unfold bindings at hb
  split at hb
  case h_3 => exact (readOff_of_mem_assignmentBindings hb).mono (s.segment_infix _ _)
  all_goals
    split at hb
    · split at hb
      · cases hb
      · obtain ⟨spec, -, hb⟩ := mem_flatMap.1 hb
        exact (readOff_of_mem_specBindings hb).mono (s.segment_infix _ _)
    · exact (readOff_of_mem_specBindings hb).mono (s.segment_infix _ _)

/-- The values of a statement's bindings can be read. -/
theorem bindings_fit (hb : b ∈ s.bindings st) : b.FitsIn s.text :=
  (readOff_of_mem_bindings hb).fitsIn s.placed

end Source

end Notebook
