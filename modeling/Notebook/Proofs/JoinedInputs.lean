import Notebook.Proofs.DeclarationTokens
import Notebook.Proofs.PlainTurns

/-!
# Inputs one below the other

Complete inputs can be put below each other, and the statements of the whole are those of the
parts.  Each of them is what it was: whether it is a declaration or a storing call, and what
it captures, is decided by its own tokens.

## Main statements

* `IsPlainInput.joinLines`: plain inputs below each other are a plain input
* `inputCaptures_joinLines`: what they capture
-/

namespace Notebook

open Lexer List

/-! ### Rows below rows -/

namespace RowsOf

variable {t u : Text} {rows rows' : List Row}

theorem balanced (h : RowsOf t rows) : Balanced t := by
  have hnest := Row.nest_flatten (Row.ended_of_sound h.sound)
  rw [h.flatten, kinds_append, nest_append] at hnest
  obtain ⟨d, hd, hend⟩ := Option.bind_eq_some_iff.1 hnest
  have hsame : nest d (kinds (pendingAfter false (Lexer.pieces t)) [lineEnd]) = some d :=
    nest_fillers (by simp [lineEnd, Piece.isFiller]) _ _
  rw [hsame] at hend
  rw [balanced_iff, hd, hend]

theorem terminated (h : RowsOf t rows) : Terminated t := by
  intro st hst
  have hmem := mem_of_getLast? hst
  rw [h.statements] at hmem
  obtain ⟨p, hp, rfl⟩ := mem_map.1 hmem
  rw [(h.spells p hp).terminator]
  exact Option.some_ne_none _

theorem append (h : RowsOf t rows) (h' : RowsOf u rows') :
    RowsOf (t ++ '\n' :: u) (rows ++ rows') := by
  have hclosed : ∀ p ∈ Lexer.pieces t ++ [lineEnd], p.isClosed = true := by
    intro p hp
    rw [← h.flatten] at hp
    exact Row.closed_flatten h.sound p hp
  have hlexed : Lexed (Lexer.pieces t ++ [lineEnd] ++ Lexer.pieces u) := by
    have hfront : Lexed (Lexer.pieces t ++ [lineEnd]) := 
      h.flatten ▸ Row.lexed_flatten (Row.ended_of_sound h.sound)
    refine lexed_append hfront (lexed_pieces u) hclosed ?_
    rw [← h.flatten]
    exact Row.seam_flatten (Row.ended_of_sound h.sound) _
  have hpieces : Lexer.pieces (t ++ '\n' :: u) =
      Lexer.pieces t ++ [lineEnd] ++ Lexer.pieces u := by
    have htext : textOf (Lexer.pieces t ++ [lineEnd] ++ Lexer.pieces u) = t ++ '\n' :: u := by
      rw [textOf_append, textOf_append, textOf_pieces, textOf_pieces, append_assoc]
      rfl
    rw [← htext]
    exact hlexed
  refine ⟨?_, ?_, ?_⟩
  · exact forall_mem_append.2 ⟨h.sound, h'.sound⟩
  · rw [Row.flatten_append, h.flatten, h'.flatten, hpieces]
    simp only [append_assoc]
  · intro p hp
    rw [hpieces] at hp
    rcases mem_append.1 hp with hp | hp
    · exact hclosed p hp
    · exact h'.closed p hp

end RowsOf

/-! ### Inputs below inputs -/

/-- An input captures what its parts capture. -/
theorem inputCaptures_append {t u : Text} (ht : IsPlainInput t) (hu : IsPlainInput u) :
    inputCaptures (t ++ '\n' :: u) = inputCaptures t ++ inputCaptures u := by
  obtain ⟨rows, hrows⟩ := ht.exists_rowsOf
  obtain ⟨rows', hrows'⟩ := hu.exists_rowsOf
  rw [← (hrows.append hrows').flatMap_capturesOf, Row.bodies_append, flatMap_append,
    hrows.flatMap_capturesOf, hrows'.flatMap_capturesOf]

/-- Plain inputs below each other are a plain input. -/
theorem IsPlainInput.append {t u : Text} (ht : IsPlainInput t) (hu : IsPlainInput u) :
    IsPlainInput (t ++ '\n' :: u) := by
  obtain ⟨rows, hrows⟩ := ht.exists_rowsOf
  obtain ⟨rows', hrows'⟩ := hu.exists_rowsOf
  have hall := hrows.append hrows'
  -- What is decided by the pieces of a statement is decided in the part that holds it.
  have hstatements : ∀ {f : Source → Statement → Bool} {g : List Piece → Bool},
      (∀ {s st body}, st.Spells s body → f s st = g body) →
      (∀ st ∈ (Source.ofText t).statements, f (.ofText t) st = false) →
      (∀ st ∈ (Source.ofText u).statements, f (.ofText u) st = false) →
      ∀ st ∈ (Source.ofText (t ++ '\n' :: u)).statements,
        f (.ofText (t ++ '\n' :: u)) st = false := by
    intro f g hfg hft hfu
    refine (hall.forall_statements_iff hfg).2 fun b hb => ?_
    rw [Row.bodies_append] at hb
    rcases mem_append.1 hb with hb | hb
    · exact (hrows.forall_statements_iff hfg).1 hft b hb
    · exact (hrows'.forall_statements_iff hfg).1 hfu b hb
  exact {
    closed := hall.closed
    balanced := hall.balanced
    terminated := hall.terminated
    inner := hstatements Statement.Spells.isPackageLevel_eq ht.inner hu.inner
    calls := hstatements Statement.Spells.isPersistence_eq ht.calls hu.calls
    free := by
      rw [Text.infix_append_cons (by decide)]
      exact not_or.2 ⟨ht.free, hu.free⟩ }

/-- Texts one below the other. -/
def joinLines (ts : List Text) : Text :=
  ['\n'].intercalate ts

theorem joinLines_singleton (t : Text) : joinLines [t] = t :=
  intercalate_singleton

theorem joinLines_cons_cons (t u : Text) (ts : List Text) :
    joinLines (t :: u :: ts) = t ++ '\n' :: joinLines (u :: ts) :=
  rfl

theorem IsPlainInput.joinLines {ts : List Text} (h : ∀ t ∈ ts, IsPlainInput t) :
    IsPlainInput (joinLines ts) := by
  induction ts with
  | nil => decide +kernel
  | cons t ts ih =>
    obtain ⟨ht, hts⟩ := forall_mem_cons.1 h
    cases ts with
    | nil =>
      rw [joinLines_singleton]
      exact ht
    | cons u ts => exact ht.append (ih hts)

/-- Inputs below each other capture what each of them captures, in their order. -/
theorem inputCaptures_joinLines {ts : List Text} (h : ∀ t ∈ ts, IsPlainInput t) :
    inputCaptures (joinLines ts) = ts.flatMap inputCaptures := by
  induction ts with
  | nil => decide +kernel
  | cons t ts ih =>
    have hrest : ∀ v ∈ ts, IsPlainInput v := fun v hv => h v (mem_cons_of_mem t hv)
    rw [flatMap_cons, ← ih hrest]
    cases ts with
    | nil =>
      have hnil : inputCaptures (joinLines []) = [] := by decide +kernel
      rw [joinLines_singleton, hnil, append_nil]
    | cons u ts =>
      rw [joinLines_cons_cons,
        inputCaptures_append (h t mem_cons_self) (.joinLines hrest)]

end Notebook
