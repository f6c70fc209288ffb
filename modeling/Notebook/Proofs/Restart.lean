import Notebook.Proofs.SessionInvariant
import Notebook.Proofs.TypedStore

/-!
# Closing and reopening a session

Nothing of a session is lost when it is closed and opened again.  After every turn and every
reset the snapshot in the store says what the open session holds, so that whoever opens the
same workspace next has the same names, function literals and declarations, in the same order.

This takes three things.  The writes to the store must succeed; the programs that are run must
leave the snapshot alone, and write nothing but variables beside it; and they must leave the
session's directory standing, for a session whose directory is gone cannot be opened.

## Main statements

* `Workspace.Stands.prepare`: a session whose directory stands can be opened
* `Workspace.SnapshotHolds.load`: what a snapshot says is loaded
* `Kernel.session_of_restart`: a session that is opened again is as it was
-/

namespace Notebook

open List

variable {config : Config} {k : Kernel} {dir : Path} {input : Text} {ws : Workspace}

namespace Workspace

/-! ### The directory of a session -/

/-- The names of the helper files. -/
def helperNames : List Text := ["builtin.go", "session.go"]

/-- The directories of a session are there, down to the store, and no directory stands where a
helper file belongs.  The helper files themselves may be gone, for opening the session writes
them again. -/
structure Stands (ws : Workspace) (files : FileTree) : Prop where
  usable : FileTree.isUsablePath ws.store.dir = true
  usableHelpers : ∀ name ∈ helperNames, FileTree.isUsablePath (Path.join ws.dir name) = true
  directories : files.Passes [] (Path.steps ws.store.dir)
  helpers : ∀ name ∈ helperNames,
    files.entryAt? (Path.placeFrom [] ws.dir ++ [name]) ≠ some .directory

variable {files files' : FileTree} {s : Session}

theorem Stands.mono (h : ws.Stands files) (hkept : files.KindsKept files')
    (hhelpers : ∀ name ∈ helperNames,
      files'.entryAt? (Path.placeFrom [] ws.dir ++ [name]) = some .directory →
        files.entryAt? (Path.placeFrom [] ws.dir ++ [name]) = some .directory) :
    ws.Stands files' where
  usable := h.usable
  usableHelpers := h.usableHelpers
  directories := h.directories.mono hkept
  helpers name hname := h.helpers name hname ∘ hhelpers name hname

/-- The directory of a session stands whatever files are written. -/
theorem Stands.write (h : ws.Stands files) {p : Path} {content : Bytes}
    (hwrite : files.write p content = .ok files') : ws.Stands files' :=
  h.mono (FileTree.kindsKept_write hwrite) fun _ _ => FileTree.directory_of_write hwrite

/-- The directories that are there are not made again. -/
theorem Stands.createDirectories (h : ws.Stands files) :
    files.createDirectories ws.store.dir = (.ok (), files) := by
  rw [FileTree.createDirectories, if_pos h.usable, FileTree.startOf,
    if_pos ws.isAbsolute_store]
  exact h.directories.makeSteps _

theorem steps_store (ws : Workspace) :
    Path.steps ws.store.dir = Path.steps ws.dir ++ ["store".toList] := by
  have hname : Path.IsName "store" := by decide
  exact FileTree.steps_join_name hname ws.dir

theorem Stands.directory (h : ws.Stands files) : files.Passes [] (Path.steps ws.dir) :=
  (ws.steps_store ▸ h.directories).of_append

/-- A helper file can be written into a directory that stands. -/
theorem Stands.writeHelper (h : ws.Stands files) {name : Text} (hname : name ∈ helperNames)
    (text : Text) :
    ∃ files', files.writeText (Path.join ws.dir name) text = .ok files' ∧
      ws.Stands files' := by
  have hnames : ∀ name ∈ helperNames, Path.IsName name ∧
      FileTree.isUsableName name = true := by
    decide
  obtain ⟨files', hwrite⟩ := h.directory.write ws.absolute (hnames name hname).1
    (h.usableHelpers name hname) (hnames name hname).2 text.toBytes (h.helpers name hname)
  exact ⟨files', hwrite, h.write hwrite⟩

/-- A session whose directory stands can be opened, and its directory stands behind that. -/
theorem Stands.prepare {σ : Type} {w : World σ} (hws : locate? config w = some ws)
    (h : ws.Stands w.files) :
    ∃ w', Workspace.prepare config w = (.ok ws, w') ∧ ws.Stands w'.files := by
  obtain ⟨files₁, hfirst, h₁⟩ := h.writeHelper (by decide : "builtin.go".toList ∈ helperNames)
    (helperSource w.processId)
  obtain ⟨files₂, hsecond, h₂⟩ :=
    h₁.writeHelper (by decide : "session.go".toList ∈ helperNames)
      ws.sessionSource
  refine ⟨{ w with files := files₂ }, ?_, h₂⟩
  simp only [Workspace.prepare, hws, h.createDirectories, writeHelpers, hfirst, hsecond]
  rfl

/-- The directory of a session that was opened stands. -/
theorem stands_of_prepare {σ : Type} {w w' : World σ}
    (h : Workspace.prepare config w = (.ok ws, w')) : ws.Stands w'.files := by
  unfold Workspace.prepare at h
  split at h
  · cases h
  next found _ =>
    split at h
    · cases h
    next u files hdirs =>
      have hfirst : Path.IsName "builtin.go" := by decide
      have hsecond : Path.IsName "session.go" := by decide
      simp only [writeHelpers] at h
      split at h
      · cases h
      next files₁ hwrite₁ =>
        split at h
        · cases h
        next files₂ hwrite₂ =>
          cases h
          have hkept :=
            (FileTree.kindsKept_write hwrite₁).trans (FileTree.kindsKept_write hwrite₂)
          obtain ⟨husable₁, hfile₁⟩ :=
            FileTree.fileAt?_write_name found.absolute hfirst hwrite₁
          obtain ⟨husable₂, hfile₂⟩ :=
            FileTree.fileAt?_write_name found.absolute hsecond hwrite₂
          unfold FileTree.createDirectories at hdirs
          split at hdirs
          next husable =>
            rw [FileTree.startOf, if_pos found.isAbsolute_store] at hdirs
            refine ⟨husable, ?_, (FileTree.passes_of_makeSteps rfl hdirs).mono hkept, ?_⟩
            · exact forall_mem_cons.2 ⟨husable₁, forall_mem_singleton.2 husable₂⟩
            · have hkept₁ := (FileTree.kindsKept_write hwrite₂
                (Path.placeFrom [] found.dir ++ ["builtin.go".toList])).2
                (Option.isSome_of_eq_some hfile₁)
              have hkept₂ := Option.isSome_of_eq_some hfile₂
              exact forall_mem_cons.2 ⟨FileTree.not_directory_of_isSome hkept₁,
                forall_mem_singleton.2 (FileTree.not_directory_of_isSome hkept₂)⟩
          · cases hdirs

/-- The only directory that a scratch directory brings is itself, and that has a number. -/
theorem directory_of_scratch {σ : Type} {w w₁ : World σ} {q : Place}
    (h : ws.scratch w = .ok (dir, w₁)) (hq : w₁.files.entryAt? q = some .directory) :
    w.files.entryAt? q = some .directory ∨
      ∃ n, q.getLast? = some ("gocell-".toList ++ Text.ofNat n) := by
  unfold scratch at h
  split at h
  · cases h
  next temp _ =>
    cases hcreate : w.files.createDirectory (scratchPath temp w) with
    | error e =>
      simp only [hcreate, bind, Except.bind] at h
      cases h
    | ok files =>
      simp only [hcreate, bind, Except.bind] at h
      split at h
      · cases h
      · cases h
        obtain ⟨hnone, rfl⟩ := FileTree.createDirectory_spec hcreate
        have hmade := directory_of_writeHelpers hq
        by_cases hself : q = w.files.placeOf (scratchPath temp w)
        · have hname : Path.IsName ("gocell-".toList ++ Text.ofNat w.scratchCount) :=
            Path.isName_numbered (by decide) (by decide) (by decide) w.scratchCount
          refine .inr ⟨w.scratchCount, ?_⟩
          rw [hself, FileTree.placeOf_eq_of_isAbsolute (isAbsolute_scratchPath temp w),
            scratchPath, Path.placeFrom_join_name hname, getLast?_concat]
        · have hother := FileTree.entryAt?_setEntry_of_ne .directory
            (by simp [hnone] : w.files.entryAt? _ ≠ some .directory) hself
          exact .inl (hother.symm.trans hmade)

/-- A session's directory stands while a scratch directory is there. -/
theorem Stands.scratch {σ : Type} {ws' : Workspace} {w w₁ : World σ} (h : ws.Stands w.files)
    (hscratch : ws'.scratch w = .ok (dir, w₁)) : ws.Stands w₁.files := by
  refine h.mono (scratch_spec hscratch).2.2.2 fun name hname hdir => ?_
  rcases directory_of_scratch hscratch hdir with hbefore | ⟨n, hn⟩
  · exact hbefore
  · rw [getLast?_concat, Option.some.injEq] at hn
    have hhead : ∀ name ∈ helperNames, name.head? ≠ some 'g' := by decide
    exact absurd (hn ▸ rfl) (hhead name hname)

/-- A session's directory stands across what a turn itself does to files. -/
theorem turnFrame_stands (ws : Workspace) :
    TurnFrame fun files files' => ws.Stands files → ws.Stands files' where
  refl _ h := h
  trans h h' := h' ∘ h
  writeSource _ _ hwrite h := h.write hwrite
  dropScratch {σ ws' w w₁ w₂ dir} hscratch h hw := by
    obtain ⟨habsolute, hempty, -, -⟩ := scratch_spec hscratch
    have hw₂ := h (hw.scratch hscratch)
    refine ⟨hw.usable, hw.usableHelpers, ⟨fun q hq => ?_, hw.directories.usable⟩,
      fun name hname hdir => ?_⟩
    · -- What stood before lies outside the scratch directory, where nothing is taken away.
      have hthere := hw.directories.directories q hq
      have houtside : Place.isBelow q (Path.placeFrom [] dir) = false := by
        cases hbelow : Place.isBelow q (Path.placeFrom [] dir) with
        | false => rfl
        | true => cases (hempty q hbelow).symm.trans hthere
      rw [← FileTree.placeOf_eq_of_isAbsolute habsolute w₂.files] at houtside
      exact (FileTree.entryAt?_removeDirectory houtside).trans
        (hw₂.directories.directories q hq)
    · rcases w₂.files.losesBelow_removeDirectory dir (Path.placeFrom [] ws.dir ++ [name]) with
        hkept | ⟨-, hgone⟩
      · exact hw₂.helpers name hname (hkept ▸ hdir)
      · cases hgone.symm.trans hdir

/-! ### The snapshot -/

/-- Where the tag of the snapshot stands. -/
def snapshotTagPlace (ws : Workspace) : Place :=
  Path.placeFrom [] (ws.store.tagPath Session.snapshotKey)

theorem snapshotTagPlace_eq (ws : Workspace) :
    ws.snapshotTagPlace =
      Path.placeFrom [] ws.store.dir ++ [Session.snapshotKey ++ ".type".toList] :=
  Path.placeFrom_join_name (by decide)

/-- The snapshot says what a session holds; an empty session needs none. -/
inductive SnapshotHolds (ws : Workspace) (s : Session) (files : FileTree) : Prop where
  | fresh (session : s = .empty) (snapshot : files.fileAt? ws.snapshotPlace = none)
  | stored {bytes : Bytes} (encoded : Codec.session.encode s = some bytes)
      (snapshot : files.fileAt? ws.snapshotPlace = some bytes)
      (tag : files.fileAt? ws.snapshotTagPlace = some Session.snapshotTag.toBytes)
      (usable : FileTree.isUsablePath (ws.store.blobPath Session.snapshotKey) = true)
      (usableTag : FileTree.isUsablePath (ws.store.tagPath Session.snapshotKey) = true)

/-- Whatever leaves the files of the snapshot alone leaves it saying the same. -/
theorem SnapshotHolds.congr (h : ws.SnapshotHolds s files)
    (hkept : ∀ q ∈ ws.snapshotPlaces, files'.fileAt? q = files.fileAt? q) :
    ws.SnapshotHolds s files' := by
  have hblob := hkept ws.snapshotPlace (by simp [snapshotPlaces])
  have htag := hkept ws.snapshotTagPlace (by simp [snapshotPlaces, snapshotTagPlace])
  cases h with
  | fresh session snapshot => exact .fresh session (hblob.trans snapshot)
  | stored encoded snapshot tag usable usableTag =>
    exact .stored encoded (hblob.trans snapshot) (htag.trans tag) usable usableTag

/-- A session that was stored is what the snapshot says. -/
theorem snapshotHolds_save (h : (s.save ws.store files).1 = .ok ()) :
    ws.SnapshotHolds s (s.save ws.store files).2 := by
  have hkey : Path.IsName Session.snapshotKey := by decide
  have htagKey : Path.IsName (Session.snapshotKey ++ ".type".toList) := by decide
  obtain ⟨bytes, files₁, files₂, hencode, -, hwrite, htagged⟩ :=
    ValueStore.encode_eq_ok (ValueStore.encode_eq_of_fst h)
  obtain ⟨husable, hblob⟩ := FileTree.fileAt?_write_name ws.isAbsolute_store hkey hwrite
  obtain ⟨husableTag, htag⟩ := FileTree.fileAt?_write_name ws.isAbsolute_store htagKey htagged
  refine .stored hencode ?_ ?_ husable husableTag
  · rw [ws.snapshotPlace_eq]
    exact (fileAt?_writeText_name ws.isAbsolute_store htagKey htagged (by simp)).trans hblob
  · rw [ws.snapshotTagPlace_eq]
    exact htag

/-- The directory of a session stands when the session is stored. -/
theorem Stands.save (h : ws.Stands files) (s : Session) :
    ws.Stands (s.save ws.store files).2 := by
  unfold Session.save ValueStore.encode
  split
  · exact h
  · rw [h.createDirectories]
    dsimp only
    split
    · exact h
    next hwrite =>
      split
      · exact h.write hwrite
      next htagged => exact (h.write hwrite).write htagged

/-- Nothing is loaded where there is no snapshot. -/
theorem exists_of_load (h : Session.load ws.store files = .ok (some s)) :
    ∃ bytes, files.fileAt? ws.snapshotPlace = some bytes := by
  unfold Session.load at h
  split at h
  next hdecode =>
    obtain ⟨bytes, _, hbytes, -⟩ := ValueStore.exists_of_decode ws.isAbsolute_store hdecode
    exact ⟨bytes, hbytes⟩
  · cases h
  · cases h

end Workspace

/-! ### Turns and resets -/

namespace Kernel

variable {σ : Type}

/-- What the snapshot says is loaded. -/
theorem loaded_of_snapshotHolds {s : Session} {files : FileTree}
    (h : ws.SnapshotHolds s files) (hstands : ws.Stands files) (hs : s.Valid) :
    ((Session.load ws.store files).toOption.bind id).getD .empty = s := by
  cases h with
  | fresh session snapshot =>
    subst session
    cases hload : Session.load ws.store files with
    | error e => rfl
    | ok loaded =>
      cases loaded with
      | none => rfl
      | some found =>
        obtain ⟨bytes, hbytes⟩ := Workspace.exists_of_load hload
        cases snapshot.symm.trans hbytes
  | @stored bytes encoded snapshot tag usable usableTag =>
    have hkey : Path.IsName Session.snapshotKey := by decide
    have htagKey : Path.IsName (Session.snapshotKey ++ ".type".toList) := by decide
    have hread : files.read (ws.store.blobPath Session.snapshotKey) = .ok bytes :=
      hstands.directories.read ws.isAbsolute_store hkey usable (by decide)
        (ws.snapshotPlace_eq ▸ snapshot)
    have hreadTag : files.read (ws.store.tagPath Session.snapshotKey) =
        .ok Session.snapshotTag.toBytes :=
      hstands.directories.read ws.isAbsolute_store htagKey usableTag (by decide)
        (ws.snapshotTagPlace_eq ▸ tag)
    have hback := Codec.readsBack_session (hs.keys.nodup hs.nodup) bytes [] encoded
    rw [append_nil] at hback
    have hholds : ws.store.Holds Session.snapshotKey Session.snapshotTag bytes files :=
      ⟨hread, hreadTag⟩
    simp only [Session.load, hholds.decode (by decide) hback]
    rfl

/-- Whether the session behind a turn can be written to the store, if the turn runs its
program. -/
def savesTurn (tools : Toolchain σ) (k : Kernel) (input : Text) (w : World σ)
    (after : Session) :
    Bool :=
  match k.turnProgram tools input w with
  | .error _ => true
  | .ok (t, _, w₁) =>
    match runProgram tools k.config t.program k.workspace.programPath w₁ with
    | (.error _, _) => true
    | (.ok _, w₂) => (after.save k.workspace.store w₂.files).1.toBool

theorem save_of_savesTurn {tools : Toolchain σ} {k : Kernel} {input : Text}
    {w w₁ w₂ : World σ} {after : Session} {t : TurnProgram} {cache : ArityCache}
    {report : RunReport} (h : savesTurn tools k input w after = true)
    (ht : k.turnProgram tools input w = .ok (t, cache, w₁))
    (hrun : runProgram tools k.config t.program k.workspace.programPath w₁ =
      (.ok report, w₂)) :
    (after.save k.workspace.store w₂.files).1 = .ok () := by
  simp only [savesTurn, ht, hrun] at h
  cases hsave : (after.save k.workspace.store w₂.files).1 with
  | error e =>
    rw [hsave] at h
    cases h
  | ok u => rfl

end Kernel

/-- Tools that change nothing in the store of a session but files of variables, and leave the
session's directory standing. -/
structure Toolchain.StoresVariables {σ : Type} (tools : Toolchain σ) (ws : Workspace) :
    Prop where
  others : ∀ name : Text, (∀ x, name ≠ variableKey x) →
    tools.Respects Eq (Path.placeFrom [] ws.store.dir ++ [name])
  stands : tools.Keeps fun files files' => ws.Stands files → ws.Stands files'

theorem Toolchain.StoresVariables.writesOnlyVariables {σ : Type} {tools : Toolchain σ}
    (h : tools.StoresVariables ws) : tools.WritesOnlyVariables ws.store := by
  intro name hname
  obtain ⟨hfix, hrun, hbuild⟩ := h.others name hname
  exact ⟨fun p w => .inl (hfix p w).symm, fun p ps w => .inl (hrun p ps w).symm,
    fun p w => .inl (hbuild p w).symm⟩

theorem Toolchain.StoresVariables.respects {σ : Type} {tools : Toolchain σ}
    (h : tools.StoresVariables ws) : ∀ q ∈ ws.snapshotPlaces, tools.Respects Eq q := by
  intro q hq
  rcases mem_pair.1 hq with rfl | rfl
  · rw [ws.snapshotPlace_eq]
    exact h.others _ fun x hx => by cases congrArg List.head? hx
  · change tools.Respects Eq ws.snapshotTagPlace
    rw [ws.snapshotTagPlace_eq]
    exact h.others _ fun x hx => by cases congrArg List.head? hx

namespace Kernel

variable {σ : Type}

/-- What turns and resets lead to from a workspace without a snapshot, as long as the store
can be written.  The tools may be others in each turn. -/
inductive Stored : Kernel → World σ → Prop where
  | opened {config : Config} {k : Kernel} {w w' : World σ}
      (fresh : w.files.fileAt? k.workspace.snapshotPlace = none)
      (start : Kernel.start config w = (.ok k, w')) : Stored k w'
  | turn {tools : Toolchain σ} {input : Text} {k k' : Kernel} {w w' : World σ}
      {result : Except TurnError Text} (before : Stored k w)
      (onlyVariables : tools.StoresVariables k.workspace)
      (turn : k.turn tools input w = .ok (result, k', w'))
      (saved : savesTurn tools k input w k'.session = true) : Stored k' w'
  | reset {k : Kernel} {w : World σ} (before : Stored k w)
      (saved : (Session.empty.save k.workspace.store w.files).1 = .ok ()) :
      Stored (k.reset w).1 (k.reset w).2

theorem Stored.reachable {w : World σ} (h : Stored k w) : Reachable k w := by
  induction h with
  | opened fresh start => exact .opened fresh start
  | turn _ onlyVariables turn _ ih => exact ih.turn onlyVariables.writesOnlyVariables turn
  | reset _ _ ih => exact ih.reset

/-- The directory of an open session stands, and the snapshot says what the session holds. -/
structure Kept (k : Kernel) (w : World σ) : Prop where
  stands : k.workspace.Stands w.files
  snapshot : k.workspace.SnapshotHolds k.session w.files

theorem kept_start {w w' : World σ} (fresh : w.files.fileAt? k.workspace.snapshotPlace = none)
    (h : start config w = (.ok k, w')) : Kept k w' := by
  have hnone := (start_fileAt? h (holdsNoSource_snapshotPlace k.workspace)).trans fresh
  have hstands : k.workspace.Stands w'.files := by
    unfold start at h
    split at h
    · cases h
    next ws _ hprepare =>
      cases h
      exact Workspace.stands_of_prepare hprepare
  refine ⟨hstands, .fresh ?_ hnone⟩
  rcases session_of_start h with hempty | hload
  · exact hempty
  · obtain ⟨bytes, hbytes⟩ := Workspace.exists_of_load hload
    cases hnone.symm.trans hbytes

theorem Kept.reset {w : World σ} (h : Kept k w)
    (saved : (Session.empty.save k.workspace.store w.files).1 = .ok ()) :
    Kept (k.reset w).1 (k.reset w).2 :=
  ⟨h.stands.save _, Workspace.snapshotHolds_save saved⟩

/-- A turn keeps the snapshot and the session the same, whether its program could be run or
not. -/
theorem Kept.turn {tools : Toolchain σ} {k' : Kernel} {w w' : World σ}
    {result : Except TurnError Text} (h : Kept k w)
    (htools : tools.StoresVariables k.workspace)
    (hturn : k.turn tools input w = .ok (result, k', w'))
    (saved : savesTurn tools k input w k'.session = true) : Kept k' w' := by
  obtain ⟨⟨t, cache, w₁⟩, ht⟩ := turnProgram_ok tools k input w
  rcases hrun : runProgram tools k.config t.program k.workspace.programPath
    w₁ with ⟨outcome, w₂⟩
  -- Up to the end of the run nothing but the tools can have changed what is kept.
  have hstands : k.workspace.Stands w₂.files :=
    keeps_of_run ht (Workspace.turnFrame_stands k.workspace) htools.stands hrun h.stands
  have hsnapshot : k.workspace.SnapshotHolds k.session w₂.files :=
    h.snapshot.congr fun q hq => (respects_of_run ht (fun _ => rfl) (fun _ _ _ => Eq.trans)
      (Workspace.holdsNoSource_of_snapshotPlaces hq) (htools.respects q hq) hrun).symm
  cases outcome with
  | error e =>
    cases hturn.symm.trans (turn_of_run_error ht hrun)
    exact ⟨hstands, hsnapshot⟩
  | ok report =>
    obtain ⟨result', gone, k'', rfl, hturn', -, -⟩ := turn_of_run_ok ht hrun
    cases hturn.symm.trans hturn'
    have hsaved := save_of_savesTurn saved ht hrun
    exact ⟨hstands.save _, Workspace.snapshotHolds_save hsaved⟩

theorem Stored.kept {w : World σ} (h : Stored k w) : Kept k w := by
  induction h with
  | opened fresh start => exact kept_start fresh start
  | turn _ onlyVariables turn saved ih => exact ih.turn onlyVariables turn saved
  | reset _ saved ih => exact ih.reset saved

/-- **A session that is opened again is as it was.**  Behind every turn and every reset that
leads to a `Stored` kernel, `start` opens the same workspace, and what it opens has the
names, the function literals and the declarations of the session that was open, each in their
order. -/
theorem session_of_restart {k : Kernel} {w : World σ} (h : Stored k w) {config : Config}
    (same : Workspace.locate? config w = some k.workspace) :
    ∃ k' w', start config w = (.ok k', w') ∧ k'.workspace = k.workspace ∧
      k'.session = k.session := by
  obtain ⟨hstands, hsnapshot⟩ := h.kept
  obtain ⟨w', hprepare, hstands'⟩ := hstands.prepare same
  have hstart : start config w = (.ok ⟨config, k.workspace,
      ((Session.load k.workspace.store w'.files).toOption.bind id).getD .empty, []⟩, w') := by
    simp only [start, hprepare]
  -- Opening writes the helper files, and leaves the snapshot as it is.
  have hsnapshot' : k.workspace.SnapshotHolds k.session w'.files :=
    hsnapshot.congr fun q hq =>
      start_fileAt? hstart (Workspace.holdsNoSource_of_snapshotPlaces hq)
  exact ⟨_, w', hstart, rfl, loaded_of_snapshotHolds hsnapshot' hstands'
    h.reachable.consistent.session⟩

theorem storesVariables_storingTools {x : Text} (content : Text)
    (hx : Path.IsName (variableKey x)) :
    (storingTools ws.store x content).StoresVariables ws := by
  refine ⟨fun name hname => ⟨fun _ _ => rfl, fun _ _ w => ?_, fun _ _ => rfl⟩,
    ⟨fun _ _ h => h, fun _ _ w h => ?_, fun _ _ h => h⟩⟩
  · unfold storingTools
    dsimp only
    split
    next files hwrite =>
      exact (fileAt?_writeText_name ws.isAbsolute_store hx hwrite
        (by simpa using hname x)).symm
    · rfl
  · unfold storingTools
    dsimp only
    split
    next files hwrite => exact h.write hwrite
    · exact h

/-- A session that a turn has given a function literal and a type is opened again with
both. -/
theorem session_of_restart_sample :
    ∃ (k : Kernel) (w : World Unit), Stored k w ∧ k.session = sampleSession ∧
      ∃ k' w', start sampleConfig w = (.ok k', w') ∧ k'.workspace = k.workspace ∧
        k'.session = k.session := by
  let tools := storingTools sampleKernel.workspace.store "f" "func() int"
  let input : Text := "f := func() int \x7b return 1 \x7d; type T int"
  let w := (start sampleConfig sampleWorld).2
  have hopened : Stored sampleKernel w :=
    .opened (by decide) (start_eq_of_fst (w := sampleWorld) (by decide +kernel))
  have hvariables : tools.StoresVariables sampleKernel.workspace :=
    storesVariables_storingTools "func() int" (by decide)
  obtain ⟨⟨result, k, w'⟩, hturn⟩ := turn_ok tools sampleKernel input w
  have heval : (sampleKernel.turn tools input w).toOption.map (fun r =>
      (r.2.1.session, Workspace.locate? sampleConfig r.2.2, r.2.1.workspace)) =
      some (sampleSession, some sampleKernel.workspace, sampleKernel.workspace) := by
    decide +kernel
  rw [hturn] at heval
  simp only [Except.toOption, Option.map_some, Option.some.injEq, Prod.mk.injEq] at heval
  obtain ⟨hsession, hsame, hworkspace⟩ := heval
  have hsaved : savesTurn tools sampleKernel input w sampleSession = true := by
    decide +kernel
  have hstored : Stored k w' := hopened.turn hvariables hturn (hsession ▸ hsaved)
  exact ⟨k, w', hstored, hsession, session_of_restart hstored (hworkspace ▸ hsame)⟩

end Kernel

end Notebook
