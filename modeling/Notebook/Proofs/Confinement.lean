import Notebook.CommandLine.Execution
import Notebook.Proofs.Trails

/-!
# Sessions keep to their directory

The id of a session is a path inside the directory of all sessions.  An id that leads down,
and on its way never above where it began, names a directory strictly inside; then nothing
that is removed with the session, and no file that is written to open it, stands anywhere
else.  No other id is refused: an id of two dots names the root of the workspace, and cleaning
removes that.

## Main statements

* `Workspace.locate_confined`: where a session with an inner id lives, what is lost with it,
  and what is written for it
* `Workspace.not_confined_of_two_dots`: what an id of two dots costs
-/

namespace Notebook

open List

namespace Place

/-- Whether a place lies below another and is not the other. -/
def IsInside (place above : Place) : Prop :=
  ∃ name names, place = above ++ name :: names

theorem IsInside.append {place above : Place} (h : place.IsInside above) (names : List Text) :
    Place.IsInside (place ++ names) above := by
  obtain ⟨name, rest, rfl⟩ := h
  exact ⟨name, rest ++ names, by simp⟩

end Place

namespace Path

/-- How far below its start a list of steps ends, from a depth on; none if a step leads above
the start. -/
def depthBehind (depth : Nat) : List Text → Option Nat
  | [] => some depth
  | name :: names =>
    if name = "..".toList then
      if depth = 0 then none else depthBehind (depth - 1) names
    else depthBehind (depth + 1) names

/-- A relative path that ends below its start and never climbs above it. -/
def IsInner (p : Path) : Prop :=
  isAbsolute p = false ∧ ∃ depth, depthBehind 0 (steps p) = some (depth + 1)

/-- The steps that stay below a place lead below it. -/
theorem foldl_follow_of_depthBehind (start way : Place) {names : List Text} {depth : Nat}
    (h : depthBehind way.length names = some depth) :
    ∃ rest, names.foldl Place.follow (start ++ way) = start ++ rest ∧
      rest.length = depth := by
  induction names generalizing way with
  | nil => exact ⟨way, rfl, Option.some.inj h⟩
  | cons name names ih =>
    rw [depthBehind] at h
    rw [foldl_cons, Place.follow]
    split at h
    next hup =>
      -- A step up takes away the last name below the start, and there is one.
      rw [if_pos hup]
      split at h
      · cases h
      next hway =>
        have hne : way ≠ [] := mt length_eq_zero_iff.2 hway
        rw [dropLast_append_of_ne_nil hne]
        exact ih _ (by rwa [length_dropLast])
    next hdown =>
      rw [if_neg hdown, append_assoc]
      exact ih _ (by rwa [length_append, length_singleton])

/-- An inner path leads strictly inside. -/
theorem IsInner.isInside_placeFrom {p : Path} (h : IsInner p) (start : Place) :
    (placeFrom start p).IsInside start := by
  obtain ⟨-, depth, hdepth⟩ := h
  obtain ⟨rest, hplace, hlength⟩ := foldl_follow_of_depthBehind start [] hdepth
  rw [append_nil] at hplace
  obtain ⟨name, names, rfl⟩ := exists_cons_of_length_eq_add_one hlength
  exact ⟨name, names, hplace⟩

/-- A name leads inside. -/
theorem isInner_of_isName {name : Text} (h : IsName name) : IsInner name := by
  refine ⟨isAbsolute_eq_false_of_isName h, 0, ?_⟩
  rw [h.1, depthBehind, if_neg h.2]
  rfl

end Path

namespace Workspace

variable {σ : Type} {config : Config} {w : World σ} {root : Path} {ws : Workspace}

/-- An id that is made up is a name. -/
theorem isName_freshId (w : World σ) : Path.IsName (freshId w) :=
  Path.isName_numbered (by decide) (by decide) (by decide) w.clock

theorem locate?_eq (hroot : Path.absolute? w.files.cwd config.workspaceRoot = some root)
    (hws : locate? config w = some ws) :
    ws.id = config.sessionId.getD (freshId w) ∧
      ws.dir = Path.join (sessionsDirectory root) ws.id := by
  unfold locate? at hws
  split at hws
  · cases hws
  next root' hroot' =>
    obtain rfl : root' = root := Option.some.inj (hroot'.symm.trans hroot)
    cases hws
    exact ⟨rfl, rfl⟩

/-- A session with an inner id lives inside the directory of all sessions. -/
theorem isInside_placeOf_dir
    (hroot : Path.absolute? w.files.cwd config.workspaceRoot = some root)
    (hws : locate? config w = some ws)
    (hid : ∀ id, config.sessionId = some id → Path.IsInner id) :
    (w.files.placeOf ws.dir).IsInside (w.files.placeOf (sessionsDirectory root)) := by
  obtain ⟨hidEq, hdir⟩ := locate?_eq hroot hws
  have hinner : Path.IsInner ws.id := by
    cases hsession : config.sessionId with
    | none =>
      rw [hidEq, hsession]
      exact Path.isInner_of_isName (isName_freshId w)
    | some id =>
      rw [hidEq, hsession]
      exact hid id hsession
  have hbase : Path.isAbsolute (sessionsDirectory root) = true :=
    Path.isAbsolute_join (Path.isAbsolute_of_absolute? hroot)
  rw [FileTree.placeOf_eq_of_isAbsolute ws.absolute,
    FileTree.placeOf_eq_of_isAbsolute hbase, hdir, Path.placeFrom_join hinner.1]
  exact hinner.isInside_placeFrom _

/-- Removing a session changes nothing outside its directory. -/
theorem entryAt?_remove {q : Place} (hq : Place.isBelow q (w.files.placeOf ws.dir) = false) :
    (ws.remove w).2.files.entryAt? q = w.files.entryAt? q := by
  unfold remove
  split
  · exact FileTree.entryAt?_removeDirectory hq
  · rfl

/-- The helper files are written into their directory. -/
theorem fileAt?_writeHelpers {dir : Path} (hdir : Path.isAbsolute dir = true) {q : Place}
    (hq : Place.isBelow q (Path.placeFrom [] dir) = false) :
    (ws.writeHelpers dir w).2.files.fileAt? q = w.files.fileAt? q := by
  have hwrite : ∀ {t u : FileTree} {name text : Text}, Path.IsName name →
      t.writeText (Path.join dir name) text = .ok u → u.fileAt? q = t.fileAt? q := by
    intro t u name text hname hwrite
    refine FileTree.fileAt?_write hwrite ?_
    rw [FileTree.placeOf_eq_of_isAbsolute (Path.isAbsolute_join hdir),
      Path.placeFrom_join_name hname]
    rintro rfl
    rw [Place.isBelow_iff.2 (prefix_append ..)] at hq
    cases hq
  unfold writeHelpers
  split
  · rfl
  next files hfiles =>
    have hfirst := hwrite (by decide) hfiles
    split
    · exact hfirst
    next files' hfiles' =>
      rw [hwrite (by decide) hfiles']
      exact hfirst

/-- Opening a session writes no file outside its directory. -/
theorem fileAt?_prepare (hws : locate? config w = some ws) {q : Place}
    (hq : Place.isBelow q (w.files.placeOf ws.dir) = false) :
    (prepare config w).2.files.fileAt? q = w.files.fileAt? q := by
  have hcreate := FileTree.fileAt?_createDirectories w.files ws.store.dir q
  rw [FileTree.placeOf_eq_of_isAbsolute ws.absolute] at hq
  unfold prepare
  rw [hws]
  dsimp only
  split
  next files hfiles =>
    rw [hfiles] at hcreate
    exact hcreate
  next files hfiles =>
    rw [hfiles] at hcreate
    rw [fileAt?_writeHelpers ws.absolute hq]
    exact hcreate

/-- Cleaning up after a named session removes that session. -/
theorem clean_files_eq {id : Text} (hid : config.sessionId = some id)
    (hws : locate? config w = some ws) (o : Transcript) :
    (CommandLine.clean config o w).world.files = (ws.remove w).2.files := by
  unfold CommandLine.clean
  rw [hid, hws]
  dsimp only
  split
  next w' h => rw [h]; rfl
  next w' h => rw [h]; rfl

/-- **A session stays inside its directory.**  If the id of a session is an inner path
(`Path.IsInner`), or it has none of its own, the directory that `locate?` finds lies strictly
inside `sessionsDirectory`.  `Workspace.remove` and `CommandLine.clean` change nothing outside
that directory, and `prepare` writes no file outside. -/
theorem locate_confined (hroot : Path.absolute? w.files.cwd config.workspaceRoot = some root)
    (hid : ∀ id, config.sessionId = some id → Path.IsInner id) :
    ∃ ws, locate? config w = some ws ∧
      (w.files.placeOf ws.dir).IsInside (w.files.placeOf (sessionsDirectory root)) ∧
      ∀ q : Place, ¬q.IsInside (w.files.placeOf (sessionsDirectory root)) →
        (ws.remove w).2.files.entryAt? q = w.files.entryAt? q ∧
        (∀ o, config.sessionId.isSome = true →
          (CommandLine.clean config o w).world.files.entryAt? q = w.files.entryAt? q) ∧
        (prepare config w).2.files.fileAt? q = w.files.fileAt? q := by
  obtain ⟨ws, hws⟩ : ∃ ws, locate? config w = some ws := by
    unfold locate?
    split
    next h => cases h.symm.trans hroot
    · exact ⟨_, rfl⟩
  have hinside := isInside_placeOf_dir hroot hws hid
  refine ⟨ws, hws, hinside, fun q hq => ?_⟩
  have hbelow : Place.isBelow q (w.files.placeOf ws.dir) = false := by
    rw [Bool.eq_false_iff]
    intro h
    obtain ⟨names, rfl⟩ := Place.isBelow_iff.1 h
    exact hq (hinside.append names)
  have hremove : (ws.remove w).2.files.entryAt? q = _ := entryAt?_remove hbelow
  refine ⟨hremove, fun o hsome => ?_, fileAt?_prepare hws hbelow⟩
  obtain ⟨id, hsession⟩ := Option.isSome_iff_exists.1 hsome
  rw [clean_files_eq hsession hws o]
  exact hremove

/-- A workspace with one session, and a file of the user beside the directory of all
sessions. -/
def sampleProject : FileTree where
  cwd := []
  entries := [(["p"], .directory), (["p", ".gocell"], .directory),
    (["p", ".gocell", "s"], .directory), (["p", ".gocell", "s", "main.go"], .file []),
    (["p", "notes"], .file [])]
  inDirectories := by
    unfold InDirectories
    decide

@[inherit_doc sampleProject]
def sampleProjectWorld : World Unit := ⟨sampleProject, none, 0, 0, 1, ()⟩

/-- The settings for a session of the sample workspace. -/
def projectConfig (id : Text) : Config :=
  { Config.default with workspaceRoot := "/p", sessionId := some id }

/-- An id may step up, as long as it stays inside: the session goes and the notes stay. -/
theorem locate_confined_detour :
    Path.IsInner "t/../s" ∧ ∃ ws,
      locate? (projectConfig "t/../s") sampleProjectWorld = some ws ∧
      (sampleProject.placeOf ws.dir).IsInside ["p", ".gocell"] ∧
      (ws.remove sampleProjectWorld).2.files.entryAt? ["p", "notes"] = some (.file []) := by
  have hinner : Path.IsInner "t/../s" := ⟨by decide, 0, by decide⟩
  obtain ⟨ws, hws, hinside, hkept⟩ :=
    @locate_confined Unit (projectConfig "t/../s") sampleProjectWorld "/p" (by decide)
      (fun id hid => Option.some.inj hid ▸ hinner)
  have hnotes : ¬Place.IsInside ["p", "notes"] ["p", ".gocell"] := by
    rintro ⟨name, names, h⟩
    simpa using congrArg List.length h
  exact ⟨hinner, ws, hws, hinside, (hkept _ hnotes).1⟩

/-- An id of two dots names the root of the workspace, and cleaning up takes the notes. -/
theorem not_confined_of_two_dots :
    ∃ ws, locate? (projectConfig "..") sampleProjectWorld = some ws ∧
      sampleProject.placeOf ws.dir = ["p".toList] ∧
      ¬(sampleProject.placeOf ws.dir).IsInside
        (sampleProject.placeOf (sessionsDirectory "/p")) ∧
      sampleProject.fileAt? ["p", "notes"] = some [] ∧
      (CommandLine.clean (projectConfig "..") Transcript.empty
        sampleProjectWorld).world.files.fileAt?
          ["p", "notes"] = none := by
  have hdir : sampleProject.placeOf "/p/.gocell/.." = ["p".toList] := by decide
  have hbase : sampleProject.placeOf (sessionsDirectory "/p") =
      ["p".toList, ".gocell".toList] := by
    decide
  refine ⟨⟨"..", "/p/.gocell/..", rfl⟩, by decide, hdir, ?_, by decide, by decide +kernel⟩
  rintro ⟨name, names, h⟩
  rw [hdir, hbase] at h
  simpa using congrArg List.length h

end Workspace

end Notebook
