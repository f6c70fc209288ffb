import Notebook.Text
import Notebook.Text.Combining
import Notebook.Text.Pictograph

/-!
# Clusters

What a reader takes for one character can be several: a letter with its marks, the letters of
a Hangul syllable, a flag, a picture put together from pictures.  A text is cut between
clusters by the rules of Unicode for extended grapheme clusters.

## Main definitions

* `Text.clusters`: a text cut into clusters; `flatten_clusters` says that nothing is lost
* `Text.takeBack`: a text in which backspaces have been obeyed
-/

namespace Notebook

namespace Cluster

/-- Control characters, line breaks among them: they stand alone. -/
def controlRanges : CodeRanges :=
  [(0x0, 32), (0x7f, 33), (0xad, 1), (0x61c, 1), (0x180e, 1), (0x200b, 1), (0x200e, 2),
   (0x2028, 7), (0x2060, 16), (0xfeff, 1), (0xfff0, 12), (0x13430, 16), (0x1bca0, 4),
   (0x1d173, 8), (0xe0000, 32), (0xe0080, 128), (0xe01f0, 3600)]

/-- Signs that go with the character behind them. -/
def prependedRanges : CodeRanges :=
  [(0x600, 6), (0x6dd, 1), (0x70f, 1), (0x890, 2), (0x8e2, 1), (0xd4e, 1), (0x110bd, 1),
   (0x110cd, 1), (0x111c2, 2), (0x113d1, 1), (0x1193f, 1), (0x11941, 1), (0x11a84, 6),
   (0x11d46, 1), (0x11f02, 1)]

/-- Consonants of the scripts that write two of them as one letter. -/
def conjunctRanges : CodeRanges :=
  [(0x915, 37), (0x958, 8), (0x978, 8), (0x995, 20), (0x9aa, 7), (0x9b2, 1), (0x9b6, 4),
   (0x9dc, 2), (0x9df, 1), (0x9f0, 2), (0xa95, 20), (0xaaa, 7), (0xab2, 2), (0xab5, 5),
   (0xaf9, 1), (0xb15, 20), (0xb2a, 7), (0xb32, 2), (0xb35, 5), (0xb5c, 2), (0xb5f, 1),
   (0xb71, 1), (0xc15, 20), (0xc2a, 16), (0xc58, 3), (0xd15, 38)]

/-- The signs that bind two such consonants. -/
def conjunctBinders : List Nat := [0x94d, 0x9cd, 0xacd, 0xb4d, 0xc4d, 0xd4d]

/-- The parts of a Hangul syllable that a character stands for. -/
inductive Hangul where
  | leading
  | vowel
  | trailing
  /-- A syllable without a trailing part. -/
  | openSyllable
  | closedSyllable
deriving DecidableEq, Repr

/-- The part of a Hangul syllable that a code point stands for. -/
def hangul? (n : Nat) : Option Hangul :=
  if 0x1100 ≤ n ∧ n ≤ 0x115f ∨ 0xa960 ≤ n ∧ n ≤ 0xa97c then some .leading
  else if 0x1160 ≤ n ∧ n ≤ 0x11a7 ∨ 0xd7b0 ≤ n ∧ n ≤ 0xd7c6 ∨ n = 0x16d63 ∨
      0x16d67 ≤ n ∧ n ≤ 0x16d6a then some .vowel
  else if 0x11a8 ≤ n ∧ n ≤ 0x11ff ∨ 0xd7cb ≤ n ∧ n ≤ 0xd7fb then some .trailing
  else if 0xac00 ≤ n ∧ n ≤ 0xd7a3 then
    if (n - 0xac00) % 28 = 0 then some .openSyllable else some .closedSyllable
  else none

/-- Whether one part of a syllable is continued by another. -/
def Hangul.continues : Hangul → Hangul → Bool
  | .leading, p => p != .trailing
  | .vowel, p | .openSyllable, p => p == .vowel || p == .trailing
  | .trailing, p | .closedSyllable, p => p == .trailing

/-- Whether a character stands alone. -/
def isControl (c : Char) : Bool :=
  controlRanges.contains c.toNat

/-- One of the letters that make a flag in pairs. -/
def isFlagLetter (c : Char) : Bool :=
  0x1f1e6 ≤ c.toNat && c.toNat ≤ 0x1f1ff

/-- Whether a consonant behind a cluster, given from its end, is bound to the consonant that
begins it. -/
def bindsConsonant (cluster : List Char) : Bool :=
  let marks := cluster.takeWhile isCombining
  marks.any (fun c => conjunctBinders.contains c.toNat) &&
    (cluster.dropWhile isCombining).head?.any fun c => conjunctRanges.contains c.toNat

/-- Whether a pictograph behind a cluster, given from its end, is joined to the pictograph
that begins it. -/
def joinsPictograph (cluster : List Char) : Bool :=
  match cluster with
  | '\u200d' :: rest =>
    (rest.dropWhile fun c => isCombining c && c != '\u200d').head?.any isPictograph
  | _ => false

/-- Whether a character continues a cluster, which is given from its end. -/
def isContinued (cluster : List Char) (c : Char) : Bool :=
  match cluster with
  | [] => false
  | last :: _ =>
    if last = '\r' ∧ c = '\n' then true
    else if isControl last || isControl c then false
    else if isCombining c || prependedRanges.contains last.toNat then true
    else
      match hangul? last.toNat, hangul? c.toNat with
      | some p, some q => p.continues q
      | _, _ =>
        isFlagLetter c && (cluster.takeWhile isFlagLetter).length % 2 == 1 ||
          conjunctRanges.contains c.toNat && bindsConsonant cluster ||
          isPictograph c && joinsPictograph cluster

/-- Cuts a text into clusters; `cluster` is the one that has been begun, from its end. -/
def cut (cluster : List Char) : Text → List Text
  | [] => if cluster.isEmpty then [] else [cluster.reverse]
  | c :: t =>
    if cluster.isEmpty || isContinued cluster c then cut (c :: cluster) t
    else cluster.reverse :: cut [c] t

/-- Cutting loses nothing. -/
theorem flatten_cut (cluster : List Char) (t : Text) :
    (cut cluster t).flatten = cluster.reverse ++ t := by
  induction t generalizing cluster with
  | nil => cases cluster <;> simp [cut]
  | cons c t ih =>
    unfold cut
    split
    · simp [ih]
    · simp [ih]

end Cluster

namespace Text

/-- The clusters of a text. -/
def clusters (t : Text) : List Text :=
  Cluster.cut [] t

/-- The clusters of a text are the text. -/
theorem flatten_clusters (t : Text) : t.clusters.flatten = t := by
  simp [clusters, Cluster.flatten_cut]

/-- A text in which every backspace has taken back the cluster before it, if there is one. -/
def takeBack (t : Text) : Text :=
  let step (kept : List Text) (cluster : Text) : List Text :=
    if cluster = ['\x08'] then kept.tail else cluster :: kept
  if t.contains '\x08' then (t.clusters.foldl step []).reverse.flatten else t

end Text

end Notebook
