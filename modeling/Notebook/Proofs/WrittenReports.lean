import Mathlib.Data.List.Chain
import Notebook.Proofs.DiagnosedLines
import Notebook.Proofs.Trimming

/-!
# Reports that are read back

A diagnostic is written on one line, and a report consists of such lines and of others between
them.  The location of a diagnostic holds no colon, so the first colon of the line is the one
behind it, and numbers follow.  Behind them stands a colon and a space, which no number can
begin with; so it is told from the line whether there is a column, whatever the message looks
like.  In the other lines no digit follows a colon.  They may still look like a diagnostic,
with a number of another script, but such a number has no value.

## Main statements

* `Diagnostic.ofLine?_render`: a diagnostic is read back from its line
* `Diagnostic.ofLine?_eq_none`: the other lines are no diagnostics
* `diagnostics_joinWith`: a report is read line by line
* `diagnostics_report`: the diagnostics of a report
-/

namespace Notebook

open List

variable {line rest t : Text}

/-! ### White space around a text -/

namespace Text

/-- A text that neither begins nor ends with white space. -/
def IsTrimmed (t : Text) : Prop :=
  t.head?.any isBlank = false ∧ t.getLast?.any isBlank = false

instance (t : Text) : Decidable t.IsTrimmed :=
  inferInstanceAs (Decidable (_ ∧ _))

theorem trimStart_of_head (h : t.head?.any isBlank = false) : trimStart t = t := by
  cases t with
  | nil => rfl
  | cons c t => exact dropWhile_cons_of_neg (ne_true_of_eq_false h)

theorem trimEnd_of_last (h : t.getLast?.any isBlank = false) : trimEnd t = t := by
  cases hlast : t.getLast? with
  | none =>
    rw [getLast?_eq_none_iff.1 hlast]
    rfl
  | some c =>
    rw [hlast] at h
    have htrim := trimEnd_append hlast h []
    rw [append_nil] at htrim
    exact htrim.trans (append_nil t)

theorem IsTrimmed.trim_eq (h : t.IsTrimmed) : trim t = t := by
  rw [trim, trimStart_of_head h.1, trimEnd_of_last h.2]

theorem trimEnd_isPrefix (t : Text) : trimEnd t <+: t := by
  have hsuffix := List.reverse_prefix.2 (dropWhile_suffix isBlank (l := t.reverse))
  rwa [reverse_reverse] at hsuffix

/-! ### Numbers in decimal -/

/-- A number of 64 bits is read back. -/
theorem toWord64?_ofNat {n : Nat} (h : n < UInt64.size) : toWord64? (ofNat n) = some n := by
  have hdigit : ∀ c ∈ ofNat n, c.isDigit = true := fun c hc =>
    Nat.isDigit_of_mem_toDigits (by decide) (Nat.le_refl 10) hc
  have hplus : (ofNat n).head? ≠ some '+' := fun hhead =>
    absurd (hdigit '+' (mem_of_head? hhead)) (by decide)
  have hvalue : digitsValue (ofNat n) = n := by
    have hfold : (fun (m : Nat) (c : Char) => m * 10 + (c.toNat - '0'.toNat)) =
        fun m c => 10 * m + (c.toNat - '0'.toNat) := by
      funext m c
      rw [Nat.mul_comm]
    rw [digitsValue, hfold]
    exact Nat.ofDigitChars_toDigits (by decide) (Nat.le_refl 10)
  have hshape : ((ofNat n).isEmpty || !(ofNat n).all Char.isDigit) = false := by
    have hne : ofNat n ≠ [] := Nat.toDigits_ne_nil
    simpa [hne] using hdigit
  rw [toWord64?]
  simp only [if_neg hplus, hshape, Bool.false_eq_true, if_false, hvalue, if_pos h]

/-- What begins with neither a digit nor a sign is no number. -/
theorem toWord64?_eq_none {c : Char} (hdigit : c.isDigit = false) (hplus : c ≠ '+') :
    toWord64? (c :: t) = none := by
  simp [toWord64?, hdigit, hplus]

end Text

theorem isWordDigit_of_isDigit {c : Char} (h : c.isDigit = true) : isWordDigit c = true := by
  have hrange : 48 ≤ c.toNat ∧ c.toNat ≤ 57 := by
    simpa [Char.isDigit, UInt32.le_iff_toNat_le] using h
  have hnew : newcomerRanges.contains c.toNat = false := by
    have hlow : c.toNat < 0x88f := by omega
    exact if_pos hlow
  rw [isWordDigit, isDecimalDigit, if_pos (by omega), h, isNewcomer, hnew]
  rfl

/-! ### One line -/

namespace Diagnostic

/-- Digits end at the colon behind them. -/
theorem span_digits {digits : Text} (h : ∀ c ∈ digits, isWordDigit c = true) (rest : Text) :
    (digits ++ ':' :: rest).takeWhile isWordDigit = digits ∧
      (digits ++ ':' :: rest).dropWhile isWordDigit = ':' :: rest := by
  have hcolon : ¬isWordDigit ':' = true := by decide
  rw [takeWhile_append_of_pos h, dropWhile_append_of_pos h,
    takeWhile_cons_of_neg hcolon, dropWhile_cons_of_neg hcolon, append_nil]
  exact ⟨rfl, rfl⟩

/-- Behind a line number, a colon and no further number comes the message. -/
theorem numbersAndMessage?_line (hne : line ≠ []) (hline : ∀ c ∈ line, isWordDigit c = true)
    (hrest : rest.takeWhile isWordDigit = []) :
    numbersAndMessage? (':' :: (line ++ ':' :: rest)) =
      some (line, none, Text.trimStart rest) := by
  obtain ⟨htake, hdrop⟩ := span_digits hline rest
  rw [numbersAndMessage?]
  simp only [htake, hdrop, hrest]

/-- Behind a line number, a colon, a further number and a colon comes the message. -/
theorem numbersAndMessage?_column {column : Text} (hne : line ≠ [])
    (hline : ∀ c ∈ line, isWordDigit c = true) (hne' : column ≠ [])
    (hcolumn : ∀ c ∈ column, isWordDigit c = true) :
    numbersAndMessage? (':' :: (line ++ ':' :: (column ++ ':' :: rest))) =
      some (line, some column, Text.trimStart rest) := by
  obtain ⟨htake, hdrop⟩ := span_digits hline (column ++ ':' :: rest)
  obtain ⟨htake', hdrop'⟩ := span_digits hcolumn rest
  rw [numbersAndMessage?]
  simp only [htake, hdrop, htake', hdrop']
  cases column with
  | nil => exact absurd rfl hne'
  | cons d column => rfl

/-- A location without colons ends where the numbers begin. -/
theorem cutLocation?_append {location : Text} {parts : Text × Option Text × Text}
    (hne : location ≠ []) (hcolon : ':' ∉ location)
    (hrest : numbersAndMessage? rest = some parts) :
    cutLocation? (location ++ rest) = some (location, parts) := by
  induction location with
  | nil => exact absurd rfl hne
  | cons c location ih =>
    rw [cons_append, cutLocation?]
    cases location with
    | nil => rw [nil_append, hrest]
    | cons d location =>
      have hd : d ≠ ':' :=
        fun h => hcolon (h ▸ mem_cons_of_mem c mem_cons_self)
      have hnone : numbersAndMessage? (d :: location ++ rest) = none := by
        rw [cons_append, numbersAndMessage?]
        intro t ht
        exact hd (List.cons.inj ht).1
      rw [hnone, ih (cons_ne_nil d location) fun h => hcolon (mem_cons_of_mem c h)]
      rfl

/-- The digits of a line number stand behind a colon. -/
theorem exists_of_cutLocation? {p : Text × Text × Option Text × Text}
    (h : cutLocation? t = some p) : ∃ c digits, p.2.1 = c :: digits ∧ isWordDigit c = true ∧
      [':', c] <:+: t := by
  induction t generalizing p with
  | nil => cases h
  | cons a t ih =>
    rw [cutLocation?] at h
    cases hnumbers : numbersAndMessage? t with
    | none =>
      rw [hnumbers] at h
      obtain ⟨q, hq, rfl⟩ := Option.map_eq_some_iff.1 h
      obtain ⟨c, digits, hdigits, hc, hinside⟩ := ih hq
      exact ⟨c, digits, hdigits, hc, infix_cons hinside⟩
    | some parts =>
      rw [hnumbers] at h
      cases h
      unfold numbersAndMessage? at hnumbers
      split at hnumbers
      next rest =>
        -- The digits are those at the front of what stands behind the colon.
        cases rest with
        | nil => cases hnumbers
        | cons c rest =>
          by_cases hc : isWordDigit c = true
          · refine ⟨c, rest.takeWhile isWordDigit, ?_, hc, [a], rest, rfl⟩
            simp only [takeWhile_cons_of_pos hc] at hnumbers
            split at hnumbers
            · contradiction
            · split at hnumbers <;> cases hnumbers <;> rfl
            · cases hnumbers
          · simp [takeWhile_cons_of_neg hc] at hnumbers
      · cases hnumbers

/-- A diagnostic that can be written: the location is a text without colons, the numbers have
64 bits, all stands on one line, and no white space stands around the location and the
message. -/
structure Regular (d : Diagnostic) : Prop where
  location_ne : d.location ≠ []
  location_plain : ':' ∉ d.location ∧ '\n' ∉ d.location
  location_trimmed : d.location.IsTrimmed
  line_lt : d.line < UInt64.size
  column_lt : ∀ c ∈ d.column, c < UInt64.size
  message_plain : '\n' ∉ d.message
  message_trimmed : d.message.IsTrimmed

instance (d : Diagnostic) : Decidable d.Regular :=
  decidable_of_iff (d.location ≠ [] ∧ (':' ∉ d.location ∧ '\n' ∉ d.location) ∧
      d.location.IsTrimmed ∧ d.line < UInt64.size ∧ (∀ c ∈ d.column, c < UInt64.size) ∧
      '\n' ∉ d.message ∧ d.message.IsTrimmed)
    ⟨fun ⟨a, b, c, d, e, f, g⟩ => ⟨a, b, c, d, e, f, g⟩,
      fun ⟨a, b, c, d, e, f, g⟩ => ⟨a, b, c, d, e, f, g⟩⟩

/-- The message behind the last colon is found again: a space is dropped, and no other white
space is there. -/
theorem trimStart_trimEnd_message {message : Text} (h : message.IsTrimmed) :
    Text.trimStart (Text.trimEnd (' ' :: message)) = message := by
  cases hlast : message.getLast? with
  | none =>
    rw [getLast?_eq_none_iff.1 hlast]
    rfl
  | some c =>
    have hend : Text.trimEnd (' ' :: message) = ' ' :: message := by
      refine Text.trimEnd_of_last ?_
      rw [getLast?_cons, hlast]
      exact hlast ▸ h.2
    have hfront : Text.trimStart (' ' :: message) = Text.trimStart message := rfl
    rw [hend, hfront, Text.trimStart_of_head h.1]

/-- No number begins with the space behind the last colon. -/
theorem takeWhile_trimEnd_message (message : Text) :
    (Text.trimEnd (' ' :: message)).takeWhile isWordDigit = [] := by
  obtain ⟨rest, hrest⟩ := Text.trimEnd_isPrefix (' ' :: message)
  cases htrim : Text.trimEnd (' ' :: message) with
  | nil => rfl
  | cons c t =>
    rw [htrim] at hrest
    obtain ⟨rfl, -⟩ := List.cons.inj hrest
    exact takeWhile_cons_of_neg (by decide)

/-- The numbers of a diagnostic and its message are found behind its location. -/
theorem numbersAndMessage?_render (d : Diagnostic) :
    ∃ numbers, d.render = d.location ++ (numbers ++ ' ' :: d.message) ∧
      numbers.getLast? = some ':' ∧ ∀ rest, rest.takeWhile isWordDigit = [] →
        numbersAndMessage? (numbers ++ rest) =
          some (Text.ofNat d.line, d.column.map Text.ofNat, Text.trimStart rest) := by
  have hne : ∀ n, Text.ofNat n ≠ [] := fun n => Nat.toDigits_ne_nil
  have hdigits : ∀ n, ∀ c ∈ Text.ofNat n, isWordDigit c = true := fun n c hc =>
    isWordDigit_of_isDigit (Nat.isDigit_of_mem_toDigits (by decide) (Nat.le_refl 10) hc)
  cases hcolumn : d.column with
  | none =>
    refine ⟨':' :: Text.ofNat d.line ++ [':'], ?_, getLast?_concat, fun rest hrest => ?_⟩
    · simp [render, hcolumn]
    · have hline := numbersAndMessage?_line (hne d.line) (hdigits d.line) hrest
      simpa using hline
  | some column =>
    refine ⟨':' :: (Text.ofNat d.line ++ ':' :: Text.ofNat column) ++ [':'], ?_,
      getLast?_concat, fun rest _ => ?_⟩
    · simp [render, hcolumn]
    · have hboth :=
        @numbersAndMessage?_column _ rest _ (hne d.line) (hdigits d.line) (hne column)
          (hdigits column)
      simpa using hboth

/-- A diagnostic is read back from the line on which it is written. -/
theorem ofLine?_render {d : Diagnostic} (h : d.Regular) : ofLine? d.render = some d := by
  obtain ⟨numbers, hrender, hlast, hnumbers⟩ := d.numbersAndMessage?_render
  have htrim : Text.trimEnd d.render =
      d.location ++ (numbers ++ Text.trimEnd (' ' :: d.message)) := by
    have hcolon : (d.location ++ numbers).getLast? = some ':' := by
      rw [getLast?_append, hlast]
      rfl
    rw [hrender, ← append_assoc, Text.trimEnd_append hcolon (by decide),
      append_assoc]
  have hcut := cutLocation?_append h.location_ne h.location_plain.1
    (hnumbers _ (takeWhile_trimEnd_message d.message))
  rw [trimStart_trimEnd_message h.message_trimmed] at hcut
  have hcolumn : (d.column.map Text.ofNat).bind Text.toWord64? = d.column := by
    cases hc : d.column with
    | none => rfl
    | some c => exact Text.toWord64?_ofNat (h.column_lt c hc)
  rw [ofLine?, htrim, hcut]
  simp only [Option.bind_eq_bind, Option.bind_some, Text.toWord64?_ofNat h.line_lt, hcolumn,
    h.location_trimmed.trim_eq]
  rfl

/-- A line in which no digit follows a colon. -/
def NamesNoLine (l : Text) : Prop :=
  l.IsChain fun a b => a = ':' → b.isDigit = false

instance (l : Text) : Decidable (NamesNoLine l) :=
  inferInstanceAs (Decidable (List.IsChain _ l))

/-- A line in which no digit follows a colon is no diagnostic. -/
theorem ofLine?_eq_none {l : Text} (h : NamesNoLine l) : ofLine? l = none := by
  rw [ofLine?]
  cases hcut : cutLocation? l.trimEnd with
  | none => rfl
  | some p =>
    obtain ⟨location, number, column, message⟩ := p
    obtain ⟨c, digits, rfl, hword, hinside⟩ := exists_of_cutLocation? hcut
    obtain ⟨a, b, hsplit⟩ := hinside.trans (Text.trimEnd_isPrefix l).isInfix
    have hdigit : c.isDigit = false := by
      rw [NamesNoLine, ← hsplit] at h
      exact (isChain_cons_cons.1 h.left_of_append.right_of_append).1 rfl
    have hplus : c ≠ '+' := by
      rintro rfl
      exact absurd hword (by decide)
    simp [Text.toWord64?_eq_none hdigit hplus]

/-- A carriage return at the end of a line does not matter. -/
theorem ofLine?_dropLineEnd (l : Text) :
    ofLine? (Text.dropLineEnd (l ++ ['\n'])) = ofLine? l := by
  rcases Text.dropLineEnd_concat l with heq | heq
  · rw [heq]
  · have hblank : isBlank '\r' = true := by decide
    have htrim := Text.trimEnd_append_blank hblank (Text.dropLineEnd (l ++ ['\n']))
    rw [← heq] at htrim
    rw [ofLine?, ofLine?, htrim]

end Diagnostic

/-! ### All lines -/

/-- What holds no line feed, but at its end, is one segment. -/
theorem Text.lineFeedSegments_single {u e : Text} (hu : '\n' ∉ u) (he : e = [] ∨ e = ['\n'])
    (hne : u ++ e ≠ []) : lineFeedSegments (u ++ e) = [u ++ e] := by
  induction u with
  | nil =>
    rcases he with rfl | rfl
    · exact absurd rfl hne
    · rfl
  | cons c u ih =>
    have hc : c ≠ '\n' := fun h => hu (h ▸ mem_cons_self)
    rw [cons_append, lineFeedSegments, if_neg hc]
    by_cases hend : u ++ e = []
    · rw [hend]
      rfl
    · rw [ih (fun h => hu (mem_cons_of_mem c h)) hend]

/-- A report is read line by line. -/
theorem diagnostics_joinWith {ls : List Text} (h : ∀ l ∈ ls, '\n' ∉ l) :
    diagnostics (Text.joinWith ['\n'] ls) = ls.filterMap Diagnostic.ofLine? := by
  induction ls with
  | nil => rfl
  | cons l ls ih =>
    obtain ⟨hl, hls⟩ := forall_mem_cons.1 h
    cases ls with
    | nil =>
      rw [Text.joinWith, diagnostics, Text.lines]
      by_cases hne : l = []
      · rw [hne]
        rfl
      · have hsegments := Text.lineFeedSegments_single hl (.inl rfl) (by simpa using hne)
        rw [append_nil] at hsegments
        rw [hsegments, map_singleton, Text.dropLineEnd_of_notMem hl]
    | cons l' ls =>
      have hends : Text.EndsLine (l ++ ['\n']) := .inr (by simp)
      have hfirst : Text.lines (l ++ ['\n']) = [Text.dropLineEnd (l ++ ['\n'])] := by
        rw [Text.lines, Text.lineFeedSegments_single hl (.inr rfl) (by simp),
          map_singleton]
      have hrest := ih hls
      rw [diagnostics] at hrest ⊢
      have hjoin : Text.joinWith ['\n'] (l :: l' :: ls) =
        l ++ ['\n'] ++ Text.joinWith ['\n'] (l' :: ls) := rfl
      rw [hjoin, Text.lines_append hends, hfirst, singleton_append, filterMap_cons,
        Diagnostic.ofLine?_dropLineEnd, hrest]
      rfl

/-- A line of a report: a diagnostic, or anything else. -/
inductive ReportLine where
  | diagnostic (d : Diagnostic)
  | remark (text : Text)
deriving DecidableEq, Repr

namespace ReportLine

/-- How a line is written. -/
def render : ReportLine → Text
  | diagnostic d => d.render
  | remark text => text

/-- The diagnostic on a line. -/
def diagnostic? : ReportLine → Option Diagnostic
  | diagnostic d => some d
  | remark _ => none

/-- A line that can stand in a report: a diagnostic that can be written, or a line in which no
digit follows a colon. -/
def Regular : ReportLine → Prop
  | diagnostic d => d.Regular
  | remark text => '\n' ∉ text ∧ Diagnostic.NamesNoLine text

instance (l : ReportLine) : Decidable l.Regular :=
  match l with
  | diagnostic d => inferInstanceAs (Decidable d.Regular)
  | remark _ => inferInstanceAs (Decidable (_ ∧ _))

theorem Regular.lineFeed_notMem {l : ReportLine} (h : l.Regular) : '\n' ∉ l.render := by
  cases l with
  | remark text => exact h.1
  | diagnostic d =>
    have hdigits : ∀ n, '\n' ∉ Text.ofNat n := fun n hmem =>
      absurd (Nat.isDigit_of_mem_toDigits (by decide) (Nat.le_refl 10) hmem) (by decide)
    cases hcolumn : d.column <;>
    · simp [render, Diagnostic.render, hcolumn, hdigits, h.location_plain.2, h.message_plain]

theorem Regular.ofLine?_render {l : ReportLine} (h : l.Regular) :
    Diagnostic.ofLine? l.render = l.diagnostic? := by
  cases l with
  | diagnostic d => exact Diagnostic.ofLine?_render h
  | remark text => exact Diagnostic.ofLine?_eq_none h.2

end ReportLine

/-- **Diagnostics are read back.**  From a report whose lines `ReportLine.render` has written,
`diagnostics` reads the diagnostics as they are, in their order and nothing else, whatever
remarks that are `Regular` stand between them. -/
theorem diagnostics_report {ls : List ReportLine} (h : ∀ l ∈ ls, l.Regular) :
    diagnostics (Text.joinWith ['\n'] (ls.map ReportLine.render)) =
      ls.filterMap ReportLine.diagnostic? := by
  have hlines : ∀ l ∈ ls.map ReportLine.render, '\n' ∉ l := by
    intro l hl
    obtain ⟨r, hr, rfl⟩ := mem_map.1 hl
    exact (h r hr).lineFeed_notMem
  rw [diagnostics_joinWith hlines, filterMap_map]
  exact filterMap_congr fun l hl => (h l hl).ofLine?_render

/-- A message that looks like numbers, a location with a space, the largest line number and no
message, and between them a line that ends in a carriage return and one with a number of
another script. -/
theorem diagnostics_report_mixed :
    let ls : List ReportLine := [.remark "# command-line-arguments",
      .diagnostic ⟨"./main.go", 6, some 18, "7:8: :9"⟩, .remark "note: in\r",
      .remark "b.go:٣: at",
      .diagnostic ⟨"a b.go", 18446744073709551615, none, ""⟩, .remark ""]
    let report : Text := "# command-line-arguments\n./main.go:6:18: 7:8: :9\nnote: in\r\n" ++
      "b.go:٣: at\na b.go:18446744073709551615: \n"
    (∀ l ∈ ls, l.Regular) ∧ Text.joinWith ['\n'] (ls.map ReportLine.render) = report ∧
      diagnostics report =
        [⟨"./main.go", 6, some 18, "7:8: :9"⟩,
          ⟨"a b.go", 18446744073709551615, none, ""⟩] := by
  intro ls report
  have hregular : ∀ l ∈ ls, l.Regular := by decide
  have hreport : Text.joinWith ['\n'] (ls.map ReportLine.render) = report := by decide +kernel
  refine ⟨hregular, hreport, ?_⟩
  rw [← hreport]
  exact diagnostics_report hregular

end Notebook
