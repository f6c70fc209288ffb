import Notebook.Proofs.Places
import Notebook.Text.Decimal

/-!
# Paths that can be followed

Whether a file can be read or written depends on the directories that its path leads through.
Once these are there, the operations no longer fail: making the directories again changes
nothing, a file in the last of them can be written, and what was written there can be read.

## Main statements

* `FileTree.passes_of_makeSteps`, `FileTree.Passes.makeSteps`: directories that were made are
  there
* `FileTree.fileAt?_write_name`: a named file that was written stands in its directory
* `FileTree.Passes.write`, `FileTree.Passes.read`: a named file can be written and read
-/

namespace Notebook

open List

variable {t : FileTree} {dir p : Path} {place start : Place} {name : Text}

/-- The places that steps lead through, the first and the last included. -/
def Place.trail (start : Place) : List Text → List Place
  | [] => [start]
  | name :: names => start :: trail (follow start name) names

namespace Path

theorem segments_of_slash_notMem (h : '/' ∉ p) : segments p = [p] := by
  induction p with
  | nil => rfl
  | cons c p ih =>
    have hc : c ≠ '/' := fun hc => h (hc ▸ mem_cons_self)
    rw [segments, if_neg hc, ih (fun hp => h (mem_cons_of_mem c hp))]

/-- Names are texts without slashes, apart from the empty one and one or two dots. -/
theorem isName_of_slash_notMem (hne : name ≠ []) (hdot : name ≠ ".".toList)
    (hdots : name ≠ "..".toList) (hslash : '/' ∉ name) : IsName name := by
  have hidle : isIdle name = false := by
    unfold isIdle
    rw [Bool.or_eq_false_iff]
    exact ⟨by simpa using hne, beq_eq_false_iff_ne.2 hdot⟩
  refine ⟨?_, hdots⟩
  rw [steps, segments_of_slash_notMem hslash, filter_cons_of_pos (by simp [hidle]),
    filter_nil]

/-- A number behind letters is a name. -/
theorem isName_numbered {front : Text} (hne : front ≠ []) (hdot : front.head? ≠ some '.')
    (hslash : '/' ∉ front) (n : Nat) : IsName (front ++ Text.ofNat n) := by
  have hhead : (front ++ Text.ofNat n).head? ≠ some '.' := by
    cases front with
    | nil => exact absurd rfl hne
    | cons c front => exact hdot
  refine isName_of_slash_notMem (append_ne_nil_of_left_ne_nil hne _) ?_ ?_ ?_
  · exact fun h => hhead (congrArg List.head? h)
  · exact fun h => hhead (congrArg List.head? h)
  · intro h
    rcases mem_append.1 h with h | h
    · exact hslash h
    · exact absurd (Nat.isDigit_of_mem_toDigits (by decide) (by decide) h) (by decide)

theorem segments_of_isName (h : IsName name) : segments name = [name] := by
  have hmem : name ∈ steps name := h.1 ▸ mem_singleton_self name
  exact segments_of_slash_notMem (slash_notMem_of_mem_segments (mem_filter.1 hmem).1)

/-- A name at the end of a path is its last segment. -/
theorem getLast?_segments_join (h : IsName name) :
    (segments (join dir name)).getLast? = some name := by
  rcases join_cases dir (isAbsolute_eq_false_of_isName h) with ⟨-, hjoin⟩ | ⟨front, -, hjoin⟩
  · rw [hjoin, segments_of_isName h, getLast?_singleton]
  · rw [hjoin, segments_append_slash, segments_of_isName h, getLast?_concat]

theorem getLast?_segments_not_isIdle (h : IsName name) :
    (segments (join dir name)).getLast?.any isIdle = false := by
  have hmem : name ∈ steps name := h.1 ▸ mem_singleton_self name
  rw [getLast?_segments_join h]
  simpa using (mem_filter.1 hmem).2

end Path

namespace FileTree

theorem fileAt?_eq_none_of_entryAt? (h : ∀ content, t.entryAt? place ≠ some (.file content)) :
    t.fileAt? place = none := by
  unfold fileAt?
  split
  next hentry => exact absurd hentry (h _)
  · rfl

/-- What it takes to resolve a path. -/
theorem resolve_eq_ok_iff :
    t.resolve p = .ok place ↔
      p.isEmpty = false ∧ isUsablePath p = true ∧
        (Path.steps p).foldlM t.step (t.startOf p) = .ok place ∧
        ((t.fileAt? place).isSome = true →
          (Path.segments p).getLast?.any Path.isIdle = false) := by
  unfold resolve
  cases hempty : p.isEmpty with
  | true => simp [bind, Except.bind, throw, throwThe, MonadExceptOf.throw]
  | false =>
    cases husable : isUsablePath p with
    | false => simp [bind, Except.bind, throw, throwThe, MonadExceptOf.throw]
    | true =>
      cases hfold : (Path.steps p).foldlM t.step (t.startOf p) with
      | error e => simp [bind, Except.bind]
      | ok found =>
        simp only [bind, Except.bind, Bool.false_eq_true, if_false, if_true,
          Except.ok.injEq, true_and]
        constructor
        · intro h
          split at h
          next hentry =>
            split at h
            · cases h
            next hidle =>
              cases h
              exact ⟨rfl, fun _ => by simpa using hidle⟩
          next hentry =>
            cases h
            refine ⟨rfl, fun hfile => ?_⟩
            rw [fileAt?_eq_none_of_entryAt? hentry] at hfile
            cases hfile
        · rintro ⟨rfl, hidle⟩
          split
          next hentry =>
            rw [hidle (by rw [fileAt?, hentry]; rfl)]
            rfl
          · rfl

/-- Steps that can be taken: they lead through directories, upwards or by names that files can
have. -/
structure Passes (t : FileTree) (start : Place) (names : List Text) : Prop where
  directories : ∀ q ∈ start.trail names, t.entryAt? q = some .directory
  usable : ∀ name ∈ names, name = "..".toList ∨ isUsableName name = true

theorem passes_nil (h : t.entryAt? start = some .directory) : t.Passes start [] :=
  ⟨by simpa [Place.trail] using h, by simp⟩

theorem passes_cons {names : List Text} :
    t.Passes start (name :: names) ↔
      t.entryAt? start = some .directory ∧ (name = "..".toList ∨ isUsableName name = true) ∧
        t.Passes (start.follow name) names := by
  constructor
  · rintro ⟨hdirs, husable⟩
    rw [Place.trail, forall_mem_cons] at hdirs
    rw [forall_mem_cons] at husable
    exact ⟨hdirs.1, husable.1, hdirs.2, husable.2⟩
  · rintro ⟨hdir, hname, hdirs, husable⟩
    refine ⟨?_, forall_mem_cons.2 ⟨hname, husable⟩⟩
    rw [Place.trail, forall_mem_cons]
    exact ⟨hdir, hdirs⟩

variable {u : FileTree} {names : List Text}

theorem Passes.mono (h : t.Passes start names) (hkept : t.KindsKept u) :
    u.Passes start names :=
  ⟨fun q hq => (hkept q).1 (h.directories q hq), h.usable⟩

theorem Passes.of_append {rest : List Text}
    (h : t.Passes start (names ++ rest)) : t.Passes start names := by
  induction names generalizing start with
  | nil =>
    refine passes_nil (h.directories start ?_)
    cases rest <;> simp [Place.trail]
  | cons name names ih =>
    obtain ⟨hdir, hname, hrest⟩ := passes_cons.1 h
    exact passes_cons.2 ⟨hdir, hname, ih hrest⟩

/-- The steps lead where they spell out. -/
theorem Passes.foldlM (h : t.Passes start names) :
    names.foldlM t.step start = .ok (names.foldl Place.follow start) := by
  induction names generalizing start with
  | nil => rfl
  | cons name names ih =>
    obtain ⟨hdir, hname, hrest⟩ := passes_cons.1 h
    rw [foldlM_cons, step_eq_ok_iff.2 ⟨hdir, hname, rfl⟩]
    exact ih hrest

/-- The last place is a directory. -/
theorem Passes.last (h : t.Passes start names) :
    t.entryAt? (names.foldl Place.follow start) = some .directory := by
  induction names generalizing start with
  | nil => exact h.directories start (mem_singleton_self start)
  | cons name names ih => exact ih (passes_cons.1 h).2.2

/-- Directories that are there are not made again. -/
theorem Passes.makeSteps (h : t.Passes start names) (lastExists : Bool) :
    t.makeSteps lastExists start names = (.ok (), t) := by
  induction names generalizing start with
  | nil => rfl
  | cons name names ih =>
    obtain ⟨hdir, hname, hrest⟩ := passes_cons.1 h
    have hnext : t.entryAt? (start.follow name) = some .directory := by
      cases names with
      | nil => exact hrest.directories _ (mem_singleton_self _)
      | cons _ _ => exact (passes_cons.1 hrest).1
    rw [FileTree.makeSteps, step_eq_ok_iff.2 ⟨hdir, hname, rfl⟩]
    simp only [hnext]
    exact ih hrest

theorem entryAt?_setEntry_of_directory {e : FileEntry}
    (h : t.entryAt? place.dropLast = some .directory) (hne : place ≠ []) :
    (t.setEntry place e).entryAt? place = some e := by
  rw [setEntry, dif_pos ⟨h, hne⟩]
  simp [entryAt?, entryIn?, hne]

/-- Behind a directory stands a directory, or a step leads down. -/
theorem follow_eq_of_none (hdir : t.entryAt? place = some .directory)
    (hnone : t.entryAt? (place.follow name) = none) :
    place.follow name = place ++ [name] := by
  unfold Place.follow at hnone ⊢
  split
  next hdots =>
    rw [if_pos hdots] at hnone
    by_cases hplace : place = []
    · rw [hplace] at hnone
      cases hnone
    · cases hnone.symm.trans (entryAt?_dropLast hplace hdir)
  · rfl

/-- Directories that were made are there. -/
theorem passes_of_makeSteps {lastExists : Bool} (hstart : t.entryAt? start = some .directory)
    (h : t.makeSteps lastExists start names = (.ok (), u)) : u.Passes start names := by
  induction names generalizing t start with
  | nil =>
    cases h
    exact passes_nil hstart
  | cons name names ih =>
    rw [FileTree.makeSteps] at h
    split at h
    · cases h
    next next hstep =>
      obtain ⟨-, hname, rfl⟩ := step_eq_ok_iff.1 hstep
      have hkept := kindsKept_makeSteps t lastExists start (name :: names)
      have hall : u = (t.makeSteps lastExists start (name :: names)).2 := by
        rw [FileTree.makeSteps, hstep]
        exact (congrArg Prod.snd h).symm
      refine passes_cons.2 ⟨?_, hname, ?_⟩
      · rw [hall]
        exact (hkept start).1 hstart
      · split at h
        next hdir => exact ih hdir h
        · cases h
        next hnone =>
          split at h
          · cases h
          · refine ih (entryAt?_setEntry_of_directory ?_ ?_) h
            · rw [follow_eq_of_none hstart hnone, dropLast_concat]
              exact hstart
            · rw [follow_eq_of_none hstart hnone]
              simp

/-! ### Reading what was written -/

variable {q : Path} {content : Bytes}

/-- Steps that can be taken can still be taken where nothing was taken away. -/
theorem foldlM_step_mono (h : names.foldlM t.step start = .ok place) (hkept : t.KindsKept u) :
    names.foldlM u.step start = .ok place := by
  induction names generalizing start with
  | nil => exact h
  | cons name names ih =>
    rw [foldlM_cons] at h ⊢
    obtain ⟨next, hstep, h⟩ := Checked.bind_eq_ok.1 h
    obtain ⟨hdir, hname⟩ := step_eq_ok_iff.1 hstep
    rw [step_eq_ok_iff.2 ⟨(hkept start).1 hdir, hname⟩]
    exact ih h

/-- A path that ends in a name is resolved as before. -/
theorem resolve_of_kept (h : t.resolve p = .ok place)
    (hlast : (Path.segments p).getLast?.any Path.isIdle = false) (hkept : t.KindsKept u)
    (hcwd : u.cwd = t.cwd) : u.resolve p = .ok place := by
  obtain ⟨hempty, husable, hsteps, -⟩ := resolve_eq_ok_iff.1 h
  rw [← startOf_congr hcwd] at hsteps
  exact resolve_eq_ok_iff.2 ⟨hempty, husable, foldlM_step_mono hsteps hkept, fun _ => hlast⟩

theorem read_eq_ok_iff :
    t.read p = .ok content ↔
      t.resolve p = .ok (t.placeOf p) ∧ t.fileAt? (t.placeOf p) = some content := by
  constructor
  · intro h
    refine ⟨?_, fileAt?_of_read h⟩
    obtain ⟨e, hlookup, -⟩ := Checked.bind_eq_ok.1 h
    obtain ⟨place, hresolve, -⟩ := Checked.bind_eq_ok.1 hlookup
    rw [hresolve, eq_placeOf_of_resolve hresolve]
  · rintro ⟨hresolve, hfile⟩
    simp only [read, lookup, hresolve, bind, Except.bind, fileAt?_eq_some_iff.1 hfile]
    rfl

/-- A file is read as before if its content is kept, and nothing on the way to it was taken
away. -/
theorem read_of_kept (h : t.read p = .ok content) (hkept : t.KindsKept u)
    (hcwd : u.cwd = t.cwd) (hfile : u.fileAt? (t.placeOf p) = t.fileAt? (t.placeOf p)) :
    u.read p = .ok content := by
  obtain ⟨hresolve, hthere⟩ := read_eq_ok_iff.1 h
  have hlast := (resolve_eq_ok_iff.1 hresolve).2.2.2 (Option.isSome_of_eq_some hthere)
  refine read_eq_ok_iff.2 ⟨?_, ?_⟩
  · rw [placeOf_congr hcwd]
    exact resolve_of_kept hresolve hlast hkept hcwd
  · rw [placeOf_congr hcwd, hfile, hthere]

/-- A path that ends in a name leads into a directory. -/
theorem directory_of_resolve (h : t.resolve p = .ok place)
    (hlast : (Path.segments p).getLast?.any Path.isIdle = false)
    (hplace : t.entryAt? place ≠ some .directory) :
    place ≠ [] ∧ t.entryAt? place.dropLast = some .directory := by
  have hne : place ≠ [] := by
    rintro rfl
    exact hplace rfl
  refine ⟨hne, ?_⟩
  obtain ⟨-, -, hsteps, -⟩ := resolve_eq_ok_iff.1 h
  -- The last segment of the path is its last step.
  obtain ⟨front, name, hfront⟩ : ∃ front name, Path.steps p = front ++ [name] := by
    obtain ⟨name, hname⟩ : ∃ name, (Path.segments p).getLast? = some name :=
      Option.ne_none_iff_exists'.1 (by simpa using Path.segments_ne_nil p)
    obtain ⟨others, hsegments⟩ := getLast?_eq_some_iff.1 hname
    rw [hname, Option.any_some] at hlast
    refine ⟨others.filter fun s => !Path.isIdle s, name, ?_⟩
    rw [Path.steps, hsegments, filter_append,
      filter_cons_of_pos (by simpa using hlast), filter_nil]
  rw [hfront, foldlM_append] at hsteps
  obtain ⟨found, -, hsteps⟩ := Checked.bind_eq_ok.1 hsteps
  have hstep : t.step found name = .ok place :=
    (bind_pure (t.step found name)).symm.trans hsteps
  obtain ⟨hdir, -, rfl⟩ := step_eq_ok_iff.1 hstep
  unfold Place.follow at hplace ⊢
  split
  next hdots =>
    rw [if_pos hdots] at hplace
    by_cases hfound : found = []
    · exact absurd (hfound ▸ rfl) hplace
    · exact absurd (entryAt?_dropLast hfound hdir) hplace
  · rwa [dropLast_concat]

/-- Where a file is written, a path leads that ends in a name. -/
theorem resolve_of_write (h : t.write p content = .ok u) :
    t.resolve p = .ok (t.placeOf p) ∧ (Path.segments p).getLast?.any Path.isIdle = false := by
  unfold write at h
  obtain ⟨place, hresolve, h⟩ := Checked.bind_eq_ok.1 h
  refine ⟨by rw [hresolve, eq_placeOf_of_resolve hresolve], ?_⟩
  split at h
  · cases h
  next found hentry =>
    exact (resolve_eq_ok_iff.1 hresolve).2.2.2
      (Option.isSome_of_eq_some (fileAt?_eq_some_iff.2 hentry))
  · split at h
    · cases h
    next hlast => simpa using hlast

/-- What was written is read. -/
theorem read_of_write (h : t.write p content = .ok u) : u.read p = .ok content := by
  obtain ⟨hresolve, hlast⟩ := resolve_of_write h
  obtain ⟨hplace, hu⟩ := write_spec h
  obtain ⟨hne, hdir⟩ := directory_of_resolve hresolve hlast hplace
  have hcwd := cwd_write h
  rw [read_eq_ok_iff, placeOf_congr hcwd]
  refine ⟨resolve_of_kept hresolve hlast (kindsKept_write h) hcwd, ?_⟩
  rw [fileAt?_eq_some_iff, hu]
  exact entryAt?_setEntry_of_directory hdir hne

/-- Writing a file changes nothing that is read from another place. -/
theorem read_of_write_of_ne (h : t.write q content = .ok u) (hne : t.placeOf p ≠ t.placeOf q)
    {other : Bytes} (hread : t.read p = .ok other) : u.read p = .ok other :=
  read_of_kept hread (kindsKept_write h) (cwd_write h) (fileAt?_write h hne)

/-- Making directories changes nothing that is read. -/
theorem read_of_createDirectories (dir : Path) (hread : t.read p = .ok content) :
    (t.createDirectories dir).2.read p = .ok content :=
  read_of_kept hread (kindsKept_createDirectories t dir) (cwd_createDirectories t dir)
    (fileAt?_createDirectories t dir _)

/-! ### Named files in a directory -/

theorem steps_join_name (hname : Path.IsName name) (dir : Path) :
    Path.steps (Path.join dir name) = Path.steps dir ++ [name] := by
  rw [Path.steps_join (Path.isAbsolute_eq_false_of_isName hname), hname.1]

theorem placeOf_join_name (hname : Path.IsName name) (t : FileTree) (dir : Path) :
    t.placeOf (Path.join dir name) = t.placeOf dir ++ [name] := by
  rw [placeOf, placeOf, startOf,
    Path.isAbsolute_join_eq (Path.isAbsolute_eq_false_of_isName hname),
    Path.placeFrom_join_name hname]
  rfl

/-- Different names in a directory name different places. -/
theorem placeOf_join_name_ne {name' : Text} (hname : Path.IsName name)
    (hname' : Path.IsName name') (hne : name ≠ name') (t : FileTree) (dir : Path) :
    t.placeOf (Path.join dir name) ≠ t.placeOf (Path.join dir name') := by
  rw [placeOf_join_name hname, placeOf_join_name hname']
  simpa using hne

section Named

variable (hdir : Path.isAbsolute dir = true) (hname : Path.IsName name)

include hdir hname

/-- A named file that was written stands in its directory. -/
theorem fileAt?_write_name (h : t.write (Path.join dir name) content = .ok u) :
    isUsablePath (Path.join dir name) = true ∧
      u.fileAt? (Path.placeFrom [] dir ++ [name]) = some content := by
  obtain ⟨hresolve, -⟩ := resolve_of_write h
  refine ⟨(resolve_eq_ok_iff.1 hresolve).2.1, ?_⟩
  have hfile := fileAt?_of_read (read_of_write h)
  rwa [placeOf_join_name hname, placeOf_eq_of_isAbsolute hdir] at hfile

variable (hpasses : t.Passes [] (Path.steps dir))
    (husable : isUsablePath (Path.join dir name) = true)
  (hshort : isUsableName name = true)

include hpasses husable hshort

/-- The path of a name in a directory that can be reached is resolved. -/
theorem Passes.resolve :
    t.resolve (Path.join dir name) = .ok (Path.placeFrom [] dir ++ [name]) := by
  have hsteps : (Path.steps (Path.join dir name)).foldlM t.step
      (t.startOf (Path.join dir name)) = .ok (Path.placeFrom [] dir ++ [name]) := by
    rw [steps_join_name hname, startOf, if_pos (Path.isAbsolute_join hdir),
      foldlM_append, hpasses.foldlM]
    change List.foldlM t.step _ [name] = _
    have hstep : t.step ((Path.steps dir).foldl Place.follow []) name =
        .ok (Path.placeFrom [] dir ++ [name]) :=
      step_eq_ok_iff.2 ⟨hpasses.last, .inr hshort, by
        rw [Place.follow, if_neg hname.2, Path.placeFrom]⟩
    rw [foldlM_cons, hstep]
    rfl
  refine resolve_eq_ok_iff.2 ⟨?_, husable, hsteps, fun _ => ?_⟩
  · simpa using Path.ne_nil_of_isAbsolute (Path.isAbsolute_join hdir)
  · exact Path.getLast?_segments_not_isIdle hname

/-- A named file can be written unless a directory has its name. -/
theorem Passes.write (content : Bytes)
    (hfile : t.entryAt? (Path.placeFrom [] dir ++ [name]) ≠ some .directory) :
    ∃ u, t.write (Path.join dir name) content = .ok u := by
  unfold FileTree.write
  rw [hpasses.resolve hdir hname husable hshort]
  simp only [bind, Except.bind]
  split
  next h => exact absurd h hfile
  · exact ⟨_, rfl⟩
  · rw [Path.getLast?_segments_not_isIdle hname]
    exact ⟨_, rfl⟩

/-- A named file that is there can be read. -/
theorem Passes.read {content : Bytes}
    (hfile : t.fileAt? (Path.placeFrom [] dir ++ [name]) = some content) :
    t.read (Path.join dir name) = .ok content := by
  unfold FileTree.read lookup
  rw [hpasses.resolve hdir hname husable hshort]
  simp only [bind, Except.bind, fileAt?_eq_some_iff.1 hfile]
  rfl

end Named

end FileTree

end Notebook
