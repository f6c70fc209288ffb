import Mathlib.Data.List.Induction
import Notebook.FileTree
import Notebook.Proofs.Checked

/-!
# What file operations leave alone

The tree is looked at through its files: `FileTree.fileAt?` is what a place holds, if it is a
file.  Writing changes one place; making directories changes no file at all; removing a
directory changes only what lies below it.  A path that can be followed leads to the place
that its steps spell out, so these places are known before anything is done.

## Main statements

* `Path.placeFrom_join`: the place of a path inside another
* `FileTree.fileAt?_write`, `fileAt?_createDirectories`, `losesBelow_removeDirectory`: what
  each operation leaves alone
* `FileTree.fileAt?_of_read`: what is read stands at the place of the path
-/

namespace Notebook

open List

variable {t u v : FileTree} {dir p : Path} {above below place q start : Place} {name : Text}

/-! ### Paths -/

namespace Path

theorem segments_ne_nil (p : Path) : segments p ≠ [] := by
  cases p with
  | nil => simp [segments]
  | cons c p =>
    rw [segments]
    split
    · simp
    · split <;> simp

/-- A slash separates segments. -/
theorem segments_append_slash (dir p : Path) :
    segments (dir ++ '/' :: p) = segments dir ++ segments p := by
  induction dir with
  | nil => simp [segments]
  | cons c dir ih =>
    rw [cons_append, segments, segments, ih]
    split
    · rfl
    · cases hdir : segments dir with
      | nil => exact absurd hdir (segments_ne_nil dir)
      | cons s ss => rfl

theorem steps_append_slash (dir p : Path) :
    steps (dir ++ '/' :: p) = steps dir ++ steps p := by
  rw [steps, segments_append_slash, filter_append, steps, steps]

/-- A slash at the end of a path says nothing. -/
theorem steps_slash (dir : Path) : steps (dir ++ ['/']) = steps dir := by
  rw [steps_append_slash]
  simp [steps, segments, isIdle]

/-- One path inside another is the second behind the first, with a slash between them. -/
theorem join_cases (dir : Path) (hp : isAbsolute p = false) :
    (dir = [] ∧ join dir p = p) ∨
      ∃ front, (dir = front ++ ['/'] ∨ dir = front) ∧ join dir p = front ++ '/' :: p := by
  unfold join
  rw [if_neg (by simp [hp])]
  split
  next hslash =>
    rcases Bool.or_eq_true_iff.1 hslash with hempty | hlast
    · obtain rfl : dir = [] := by simpa using hempty
      exact .inl ⟨rfl, rfl⟩
    · obtain ⟨front, rfl⟩ := getLast?_eq_some_iff.1 (beq_iff_eq.1 hlast)
      exact .inr ⟨front, .inl rfl, by simp⟩
  · exact .inr ⟨dir, .inr rfl, append_assoc ..⟩

/-- The steps of a path inside another. -/
theorem steps_join (hp : isAbsolute p = false) :
    steps (join dir p) = steps dir ++ steps p := by
  rcases join_cases dir hp with ⟨rfl, hjoin⟩ | ⟨front, rfl | rfl, hjoin⟩
  · rw [hjoin]
    rfl
  · rw [hjoin, steps_append_slash, steps_slash]
  · rw [hjoin, steps_append_slash]

theorem isAbsolute_join_eq (hp : isAbsolute p = false) :
    isAbsolute (join dir p) = isAbsolute dir := by
  unfold join
  rw [if_neg (by simp [hp])]
  cases dir with
  | nil => simpa [isAbsolute] using hp
  | cons c dir => split <;> simp [isAbsolute]

theorem ne_nil_of_isAbsolute (h : isAbsolute p = true) : p ≠ [] := by
  rintro rfl
  cases h

/-- The place of a path inside another. -/
theorem placeFrom_join (hp : isAbsolute p = false) :
    placeFrom start (join dir p) = placeFrom (placeFrom start dir) p := by
  rw [placeFrom, steps_join hp, foldl_append, placeFrom, placeFrom]

/-- A name as a file can have it: not idle, not two dots, and without slashes. -/
def IsName (name : Text) : Prop :=
  steps name = [name] ∧ name ≠ "..".toList

instance (name : Text) : Decidable (IsName name) :=
  inferInstanceAs (Decidable (_ ∧ _))

theorem slash_notMem_of_mem_segments {s : Text} (h : s ∈ segments p) : '/' ∉ s := by
  induction p generalizing s with
  | nil => simp_all [segments]
  | cons c p ih =>
    rw [segments] at h
    split at h
    · rcases mem_cons.1 h with rfl | h
      · exact not_mem_nil
      · exact ih h
    next hc =>
      cases hp : segments p with
      | nil => exact absurd hp (segments_ne_nil p)
      | cons t ts =>
        rw [hp] at h
        rcases mem_cons.1 h with rfl | h
        · have ht := ih (hp ▸ mem_cons_self)
          simpa [ht] using Ne.symm hc
        · exact ih (hp ▸ mem_cons_of_mem t h)

theorem isAbsolute_eq_false_of_isName (h : IsName name) : isAbsolute name = false := by
  have hmem : name ∈ steps name := h.1 ▸ mem_singleton_self name
  have hslash := slash_notMem_of_mem_segments (mem_filter.1 hmem).1
  cases name with
  | nil => rfl
  | cons c r =>
    have hc : c ≠ '/' := fun hc => hslash (hc ▸ mem_cons_self)
    simpa [isAbsolute] using hc

/-- A name inside a directory names a place of that directory. -/
theorem placeFrom_join_name (hname : IsName name) :
    placeFrom start (join dir name) = placeFrom start dir ++ [name] := by
  rw [placeFrom_join (isAbsolute_eq_false_of_isName hname), placeFrom, hname.1,
    foldl_cons, foldl_nil, Place.follow, if_neg hname.2]

end Path

namespace FileTree

/-- The content of the file at a place. -/
def fileAt? (t : FileTree) (place : Place) : Option Bytes :=
  match t.entryAt? place with
  | some (.file content) => some content
  | _ => none

theorem fileAt?_congr (h : u.entryAt? place = t.entryAt? place) :
    u.fileAt? place = t.fileAt? place := by
  rw [fileAt?, fileAt?, h]

theorem fileAt?_eq_some_iff {content : Bytes} :
    t.fileAt? place = some content ↔ t.entryAt? place = some (.file content) := by
  unfold fileAt?
  split
  next h => simp [h]
  next h => exact ⟨nofun, fun hentry => absurd hentry (h content)⟩

/-! ### Entries -/

theorem mem_entries_of_entryAt? {e : FileEntry} (hne : place ≠ [])
    (h : t.entryAt? place = some e) : (place, e) ∈ t.entries := by
  rw [entryAt?, entryIn?, if_neg hne] at h
  obtain ⟨l₁, l₂, heq, -⟩ := lookup_eq_some_iff.1 h
  exact heq ▸ mem_append_right l₁ mem_cons_self

/-- What is in the tree stands in a directory. -/
theorem entryAt?_dropLast {e : FileEntry} (hne : place ≠ []) (h : t.entryAt? place = some e) :
    t.entryAt? place.dropLast = some .directory :=
  t.inDirectories _ (mem_entries_of_entryAt? hne h)

/-- Whatever has something below it is a directory. -/
theorem directory_of_below {e : FileEntry} (hne : below ≠ [])
    (h : t.entryAt? (above ++ below) = some e) : t.entryAt? above = some .directory := by
  -- The directory of the last name has one name less below it.
  induction below using reverseRecOn generalizing e with
  | nil => exact absurd rfl hne
  | append_singleton below name ih =>
    have hdir := entryAt?_dropLast (by simp) h
    rw [← append_assoc, dropLast_concat] at hdir
    cases below with
    | nil => simpa using hdir
    | cons n ns => exact ih (cons_ne_nil n ns) hdir

/-- Nothing stands below a place that is no directory. -/
theorem entryAt?_eq_none_of_below (hne : below ≠ [])
    (h : t.entryAt? above ≠ some .directory) : t.entryAt? (above ++ below) = none := by
  cases hentry : t.entryAt? (above ++ below) with
  | none => rfl
  | some e => exact absurd (directory_of_below hne hentry) h

theorem entryAt?_setEntry_of_not_below (e : FileEntry) (h : Place.isBelow q place = false) :
    (t.setEntry place e).entryAt? q = t.entryAt? q := by
  unfold setEntry
  split
  · have hne : (q == place) = false := by
      cases heq : q == place with
      | false => rfl
      | true => rw [eq_of_beq heq, Place.isBelow_iff.2 prefix_rfl] at h; cases h
    rw [entryAt?, entryAt?, ← entryIn?_filter (fun p => !Place.isBelow p place) (by simp [h])
      t.entries]
    simp [entryIn?, lookup_cons, hne]
  · rfl

/-- Putting an entry where no directory stands changes that place and no other. -/
theorem entryAt?_setEntry_of_ne (e : FileEntry) (hplace : t.entryAt? place ≠ some .directory)
    (hq : q ≠ place) : (t.setEntry place e).entryAt? q = t.entryAt? q := by
  cases hbelow : Place.isBelow q place with
  | false => exact entryAt?_setEntry_of_not_below e hbelow
  | true =>
    obtain ⟨r, rfl⟩ := Place.isBelow_iff.1 hbelow
    have hr : r ≠ [] := by
      rintro rfl
      exact hq (append_nil place)
    -- Below a place that was no directory there was nothing, and nothing is put there.
    rw [entryAt?_eq_none_of_below hr hplace]
    unfold setEntry
    split
    · have hne : (place ++ r == place) = false := by simpa using hr
      have hnone :
          (t.entries.filter fun p => !Place.isBelow p.1 place).lookup
            (place ++ r) = none := by
        rw [lookup_eq_none_iff]
        rintro ⟨key, _⟩ hkey
        simp only [mem_filter, Bool.not_eq_true', bne_iff_ne, ne_eq] at hkey ⊢
        rintro rfl
        rw [hbelow] at hkey
        cases hkey.2
      simp [entryAt?, entryIn?, hr, lookup_cons, hne, hnone]
    · exact entryAt?_eq_none_of_below hr hplace

/-- What stands where an entry was put: the entry, or what was there before. -/
theorem entryAt?_setEntry_self (t : FileTree) (place : Place) (e : FileEntry) :
    (t.setEntry place e).entryAt? place = some e ∨
      (t.setEntry place e).entryAt? place = t.entryAt? place := by
  unfold setEntry
  split
  next h => exact .inl (by simp [entryAt?, entryIn?, h.2])
  · exact .inr rfl

/-! ### Resolving -/

/-- A step is taken from a directory, up or by a name that a file can have. -/
theorem step_eq_ok_iff {next : Place} :
    t.step place name = .ok next ↔
      t.entryAt? place = some .directory ∧
        (name = "..".toList ∨ isUsableName name = true) ∧ next = Place.follow place name := by
  unfold step checkDirectory
  cases hentry : t.entryAt? place with
  | none => simp [bind, Except.bind]
  | some e =>
    cases e with
    | file content => simp [bind, Except.bind]
    | directory =>
      simp only [bind, Except.bind, true_and]
      split
      next h => exact ⟨fun heq => ⟨h, (Except.ok.inj heq).symm⟩, fun heq =>
        congrArg _ heq.2.symm⟩
      next h => exact ⟨(nomatch ·), fun heq => absurd heq.1 h⟩

theorem foldlM_step_eq {names : List Text} (h : names.foldlM t.step start = .ok place) :
    place = names.foldl Place.follow start := by
  induction names generalizing start with
  | nil =>
    cases h
    rfl
  | cons name names ih =>
    rw [foldlM_cons] at h
    obtain ⟨next, hstep, h⟩ := Checked.bind_eq_ok.1 h
    obtain ⟨-, -, rfl⟩ := step_eq_ok_iff.1 hstep
    exact ih h

/-- A path that can be followed leads to the place that its steps spell out. -/
theorem eq_placeOf_of_resolve (h : t.resolve p = .ok place) : place = t.placeOf p := by
  unfold resolve at h
  cases hsteps : (Path.steps p).foldlM t.step (t.startOf p) with
  | error e =>
    rw [hsteps] at h
    simp only [bind, Except.bind] at h
    repeat' split at h
    all_goals cases h
  | ok found =>
    rw [hsteps] at h
    obtain rfl : place = found := by
      simp only [bind, Except.bind] at h
      repeat' split at h
      all_goals cases h
      all_goals rfl
    exact foldlM_step_eq hsteps

theorem placeOf_eq_of_isAbsolute (h : Path.isAbsolute p = true) (t : FileTree) :
    t.placeOf p = Path.placeFrom [] p := by
  rw [placeOf, startOf, if_pos h]

/-! ### Operations -/

/-- A file is written where no directory stands. -/
theorem write_spec {content : Bytes} (h : t.write p content = .ok u) :
    t.entryAt? (t.placeOf p) ≠ some .directory ∧
      u = t.setEntry (t.placeOf p) (.file content) := by
  unfold write at h
  obtain ⟨place, hresolve, h⟩ := Checked.bind_eq_ok.1 h
  rw [eq_placeOf_of_resolve hresolve] at h
  split at h
  · cases h
  next hentry =>
    cases h
    exact ⟨by simp [hentry], rfl⟩
  next hentry =>
    split at h
    · cases h
    · cases h
      exact ⟨by simp [hentry], rfl⟩

/-- Writing a file changes no other. -/
theorem fileAt?_write {content : Bytes} (h : t.write p content = .ok u)
    (hq : q ≠ t.placeOf p) : u.fileAt? q = t.fileAt? q := by
  obtain ⟨hplace, rfl⟩ := write_spec h
  exact fileAt?_congr (entryAt?_setEntry_of_ne _ hplace hq)

/-- A file that was written has the new content, unless it is as it was. -/
theorem fileAt?_write_self {content : Bytes} (h : t.write p content = .ok u) :
    u.fileAt? (t.placeOf p) = some content ∨ u.fileAt? (t.placeOf p) =
      t.fileAt? (t.placeOf p) := by
  obtain ⟨-, rfl⟩ := write_spec h
  rcases entryAt?_setEntry_self t (t.placeOf p) (.file content) with hself | hself
  · exact .inl (by rw [fileAt?, hself])
  · exact .inr (fileAt?_congr hself)

/-- Putting a directory where nothing stands changes no file. -/
theorem fileAt?_setEntry_directory (h : t.entryAt? place = none) (q : Place) :
    (t.setEntry place .directory).fileAt? q = t.fileAt? q := by
  by_cases hq : q = place
  · subst hq
    rcases entryAt?_setEntry_self t q .directory with hself | hself
    · rw [fileAt?, hself, fileAt?, h]
    · exact fileAt?_congr hself
  · exact fileAt?_congr (entryAt?_setEntry_of_ne _ (by simp [h]) hq)

theorem createDirectory_spec (h : t.createDirectory p = .ok u) :
    t.entryAt? (t.placeOf p) = none ∧ u = t.setEntry (t.placeOf p) .directory := by
  unfold createDirectory at h
  obtain ⟨place, hresolve, h⟩ := Checked.bind_eq_ok.1 h
  rw [eq_placeOf_of_resolve hresolve] at h
  split at h
  · cases h
  next hentry =>
    cases h
    exact ⟨hentry, rfl⟩

/-- Making directories changes no file. -/
theorem fileAt?_makeSteps (t : FileTree) (lastExists : Bool) (place : Place)
    (names : List Text) (q : Place) :
    (t.makeSteps lastExists place names).2.fileAt? q = t.fileAt? q := by
  induction names generalizing t place with
  | nil => rfl
  | cons name names ih =>
    rw [makeSteps]
    split
    · rfl
    · split
      · exact ih t _
      · rfl
      next hentry =>
        split
        · rfl
        · rw [ih]
          exact fileAt?_setEntry_directory hentry q

theorem fileAt?_createDirectories (t : FileTree) (p : Path) (q : Place) :
    (t.createDirectories p).2.fileAt? q = t.fileAt? q := by
  unfold createDirectories
  split
  · exact fileAt?_makeSteps t _ _ _ q
  · rfl

/-- Leaving out entries leaves a place as it is, or with nothing. -/
theorem entryIn?_filter_cases (keep : Place → Bool) (entries : List (Place × FileEntry))
    (hne : place ≠ []) :
    entryIn? (entries.filter fun p => keep p.1) place = entryIn? entries place ∨
      entryIn? (entries.filter fun p => keep p.1) place = none := by
  cases hkeep : keep place with
  | true => exact .inl (entryIn?_filter keep hkeep entries)
  | false =>
    right
    rw [entryIn?, if_neg hne, lookup_eq_none_iff]
    rintro ⟨key, _⟩ hkey
    simp only [mem_filter, bne_iff_ne, ne_eq] at hkey ⊢
    rintro rfl
    rw [hkeep] at hkey
    cases hkey.2

/-- A tree that has the entries of another, but for some that lie below a place. -/
def LosesBelow (t u : FileTree) (place : Place) : Prop :=
  ∀ q, u.entryAt? q = t.entryAt? q ∨ Place.isBelow q place = true ∧ u.entryAt? q = none

theorem LosesBelow.refl (t : FileTree) (place : Place) : LosesBelow t t place :=
  fun _ => .inl rfl

theorem LosesBelow.trans (htu : LosesBelow t u place) (huv : LosesBelow u v place) :
    LosesBelow t v place := by
  intro q
  rcases huv q with h | h
  · rw [h]
    exact htu q
  · exact .inr h

theorem losesBelow_filter (keep : Place → Bool)
    (hkeep : ∀ q, Place.isBelow q place = false → keep q = true)
    (hentries : u.entries = t.entries.filter fun p => keep p.1) : LosesBelow t u place := by
  intro q
  rw [entryAt?, entryAt?, hentries]
  cases hbelow : Place.isBelow q place with
  | false => exact .inl (entryIn?_filter keep (hkeep q hbelow) t.entries)
  | true =>
    by_cases hq : q = []
    · subst hq
      exact .inl rfl
    · rcases entryIn?_filter_cases keep t.entries hq with h | h
      · exact .inl h
      · exact .inr ⟨rfl, h⟩

theorem losesBelow_removeBelow (t : FileTree) (place : Place) :
    LosesBelow t (t.removeBelow place) place :=
  losesBelow_filter (fun q => !Place.isBelow q place) (fun q hq => by simp [hq]) rfl

theorem losesBelow_clearBelow (t : FileTree) (place : Place) :
    LosesBelow t (t.clearBelow place) place :=
  losesBelow_filter (fun q => q == place || !Place.isBelow q place)
    (fun q hq => by simp [hq]) rfl

theorem losesBelow_removeEmpty (h : t.removeEmpty p = .ok u) :
    LosesBelow t u (t.placeOf p) := by
  unfold removeEmpty at h
  split at h
  · cases h
    exact LosesBelow.refl t _
  · cases h
  next place hresolve =>
    rw [eq_placeOf_of_resolve hresolve] at h
    split at h
    all_goals cases h
    exact losesBelow_removeBelow t _

theorem eq_placeOf_of_directoryPlace (h : t.directoryPlace p = .ok place) :
    place = t.placeOf p := by
  unfold directoryPlace at h
  obtain ⟨found, hresolve, h⟩ := Checked.bind_eq_ok.1 h
  obtain ⟨-, -, h⟩ := Checked.bind_eq_ok.1 h
  cases h
  exact eq_placeOf_of_resolve hresolve

/-- Removing a directory takes away what lies below it and nothing else. -/
theorem losesBelow_removeDirectory (t : FileTree) (p : Path) :
    LosesBelow t (t.removeDirectory p).2 (t.placeOf p) := by
  unfold removeDirectory
  cases hdir : t.directoryPlace p with
  | error e => exact LosesBelow.refl t _
  | ok place =>
    obtain rfl : place = t.placeOf p := eq_placeOf_of_directoryPlace hdir
    -- All that lies below goes first, and then the directory, if its path still leads there.
    have hclear := losesBelow_clearBelow t (t.placeOf p)
    simp only
    split
    · exact hclear
    next u hremove => exact hclear.trans (losesBelow_removeEmpty hremove)

/-! ### Kinds of entries -/

/-- A tree in which every directory of another is still a directory, and every file a file. -/
def KindsKept (t u : FileTree) : Prop :=
  ∀ q, (t.entryAt? q = some .directory → u.entryAt? q = some .directory) ∧
    ((t.fileAt? q).isSome = true → (u.fileAt? q).isSome = true)

theorem KindsKept.refl (t : FileTree) : t.KindsKept t :=
  fun _ => ⟨id, id⟩

theorem KindsKept.trans (htu : t.KindsKept u) (huv : u.KindsKept v) : t.KindsKept v :=
  fun q => ⟨(huv q).1 ∘ (htu q).1, (huv q).2 ∘ (htu q).2⟩

theorem not_directory_of_isSome (h : (t.fileAt? q).isSome = true) :
    t.entryAt? q ≠ some .directory := by
  intro hdir
  rw [fileAt?, hdir] at h
  cases h

theorem KindsKept.of_entryAt?_eq (h : u.entryAt? q = t.entryAt? q) :
    (t.entryAt? q = some .directory → u.entryAt? q = some .directory) ∧
      ((t.fileAt? q).isSome = true → (u.fileAt? q).isSome = true) := by
  rw [h, fileAt?_congr h]
  exact ⟨id, id⟩

/-- Putting an entry where nothing stands takes nothing away. -/
theorem kindsKept_setEntry_of_none (e : FileEntry) (h : t.entryAt? place = none) :
    t.KindsKept (t.setEntry place e) := by
  intro q
  by_cases hq : q = place
  · subst hq
    simp [fileAt?, h]
  · exact KindsKept.of_entryAt?_eq (entryAt?_setEntry_of_ne e (by simp [h]) hq)

/-- A file that is written takes the place of a file or of nothing. -/
theorem kindsKept_write {content : Bytes} (h : t.write p content = .ok u) :
    t.KindsKept u := by
  intro q
  by_cases hq : q = t.placeOf p
  · subst hq
    refine ⟨fun hdir => absurd hdir (write_spec h).1, fun hfile => ?_⟩
    rcases fileAt?_write_self h with hself | hself
    · simp [hself]
    · rwa [hself]
  · obtain ⟨hplace, rfl⟩ := write_spec h
    exact KindsKept.of_entryAt?_eq (entryAt?_setEntry_of_ne _ hplace hq)

/-- Where a file is written no directory comes about. -/
theorem directory_of_write {content : Bytes} (h : t.write p content = .ok u)
    (hq : u.entryAt? q = some .directory) : t.entryAt? q = some .directory := by
  obtain ⟨hplace, rfl⟩ := write_spec h
  by_cases hself : q = t.placeOf p
  · subst hself
    rcases entryAt?_setEntry_self t (t.placeOf p) (.file content) with hfile | hkept
    · cases hfile.symm.trans hq
    · exact hkept ▸ hq
  · exact entryAt?_setEntry_of_ne _ hplace hself ▸ hq

theorem kindsKept_makeSteps (t : FileTree) (lastExists : Bool) (place : Place)
    (names : List Text) : t.KindsKept (t.makeSteps lastExists place names).2 := by
  induction names generalizing t place with
  | nil => exact .refl t
  | cons name names ih =>
    rw [makeSteps]
    split
    · exact .refl t
    · split
      · exact ih t _
      · exact .refl t
      next hentry =>
        split
        · exact .refl t
        · exact (kindsKept_setEntry_of_none .directory hentry).trans (ih _ _)

theorem kindsKept_createDirectories (t : FileTree) (p : Path) :
    t.KindsKept (t.createDirectories p).2 := by
  unfold createDirectories
  split
  · exact kindsKept_makeSteps t _ _ _
  · exact .refl t

/-- Removing a directory changes nothing outside it. -/
theorem entryAt?_removeDirectory (hq : Place.isBelow q (t.placeOf p) = false) :
    (t.removeDirectory p).2.entryAt? q = t.entryAt? q := by
  rcases t.losesBelow_removeDirectory p q with hkept | ⟨hbelow, -⟩
  · exact hkept
  · rw [hq] at hbelow
    cases hbelow

/-! ### Where relative paths begin -/

theorem cwd_setEntry (t : FileTree) (place : Place) (e : FileEntry) :
    (t.setEntry place e).cwd = t.cwd := by
  unfold setEntry
  split <;> rfl

theorem cwd_makeSteps (t : FileTree) (lastExists : Bool) (place : Place) (names : List Text) :
    (t.makeSteps lastExists place names).2.cwd = t.cwd := by
  induction names generalizing t place with
  | nil => rfl
  | cons name names ih =>
    rw [makeSteps]
    split
    · rfl
    · split
      · exact ih t _
      · rfl
      · split
        · rfl
        · rw [ih, cwd_setEntry]

theorem cwd_write {content : Bytes} (h : t.write p content = .ok u) : u.cwd = t.cwd := by
  rw [(write_spec h).2, cwd_setEntry]

theorem cwd_createDirectories (t : FileTree) (p : Path) :
    (t.createDirectories p).2.cwd = t.cwd := by
  unfold createDirectories
  split
  · exact cwd_makeSteps t _ _ _
  · rfl

theorem startOf_congr (h : u.cwd = t.cwd) (p : Path) : u.startOf p = t.startOf p := by
  rw [startOf, startOf, h]

theorem placeOf_congr (h : u.cwd = t.cwd) (p : Path) : u.placeOf p = t.placeOf p := by
  rw [placeOf, placeOf, startOf_congr h]

/-! ### Reading -/

/-- What is read from a path stands at its place. -/
theorem fileAt?_of_read {content : Bytes} (h : t.read p = .ok content) :
    t.fileAt? (t.placeOf p) = some content := by
  obtain ⟨e, hlookup, h⟩ := Checked.bind_eq_ok.1 h
  obtain ⟨place, hresolve, hentry⟩ := Checked.bind_eq_ok.1 hlookup
  rw [eq_placeOf_of_resolve hresolve] at hentry
  split at hentry
  next hat =>
    cases hentry
    cases e with
    | directory => cases h
    | file found =>
      cases h
      rw [fileAt?, hat]
  · cases hentry

end FileTree

end Notebook
