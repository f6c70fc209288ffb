import Notebook.Proofs.RoundTrip
import Notebook.Proofs.TurnEffect

/-!
# What holds of every session

Whatever is done with a session, its live names are different, its function literals stand
under live names and in their order, and no two of its declarations have the same identity.  A
session that is opened again is read from its snapshot, so the same has to hold of what the
snapshot says; it does as long as the programs that are run write nothing but variables into
the store.

## Main statements

* `Kernel.consistent_start`, `Kernel.Consistent.turn`, `Kernel.Consistent.reset`: what a step
  keeps
* `Kernel.session_valid_of_reachable`: every session that can be reached is valid
-/

namespace Notebook

open List

variable {config : Config} {k : Kernel} {q : Place} {s : Session} {store : ValueStore}

/-! ### Declarations -/

namespace Declaration

/-- What tells declarations apart. -/
def identity (d : Declaration) : DeclarationKind × Text := (d.kind, d.key)

theorem sameIdentity_iff {a b : Declaration} :
    a.sameIdentity b = true ↔ a.identity = b.identity := by
  simp [sameIdentity, identity]

/-- Putting a declaration in adds its identity at the end, unless it was there. -/
theorem map_identity_put (ds : List Declaration) (d : Declaration) :
    (put ds d).map identity =
      if d.identity ∈ ds.map identity then ds.map identity
      else ds.map identity ++ [d.identity] := by
  induction ds with
  | nil => rfl
  | cons e ds ih =>
    rw [put]
    split
    next h =>
      rw [sameIdentity_iff] at h
      simp [h]
    next h =>
      rw [sameIdentity_iff] at h
      have hmem : d.identity ∈ (e :: ds).map identity ↔ d.identity ∈ ds.map identity := by
        simp [Ne.symm h]
      rw [map_cons, ih]
      by_cases hd : d.identity ∈ ds.map identity
      · rw [if_pos hd, if_pos (hmem.2 hd), map_cons]
      · rw [if_neg hd, if_neg (hd ∘ hmem.1), map_cons, cons_append]

/-- Merging keeps identities different. -/
theorem nodup_merge {existing : List Declaration} (h : (existing.map identity).Nodup)
    (pending : List Declaration) : ((merge existing pending).map identity).Nodup := by
  induction pending generalizing existing with
  | nil => exact h
  | cons d ds ih =>
    rw [merge_cons]
    refine ih ?_
    rw [map_identity_put]
    split
    · exact h
    next hnew =>
      refine nodup_append.2 ⟨h, by simp, ?_⟩
      rintro i hi j hj rfl
      exact hnew (mem_singleton.1 hj ▸ hi)

end Declaration

/-! ### Sessions -/

namespace Session

/-- What holds of every session. -/
structure Valid (s : Session) : Prop where
  nodup : s.names.Nodup
  /-- Function literals stand under live names, in the order of the names. -/
  keys : (s.literals.map Prod.fst).Sublist s.names
  literals : ∀ l ∈ s.literals, isFunctionLiteral l.2 = true
  declarations : (s.declarations.map Declaration.identity).Nodup

theorem valid_empty : Valid empty where
  nodup := nodup_nil
  keys := Sublist.refl []
  literals := by simp [empty]
  declarations := nodup_nil

theorem Valid.without (h : s.Valid) (gone : List Text) :
    (s.without gone).Valid where
  nodup := h.nodup.filter _
  keys := by
    -- Names and keys lose the same names, so the keys stay a part of the names.
    have hmap : ((s.without gone).literals.map Prod.fst) =
        (s.literals.map Prod.fst).filter (· ∉ gone) := by
      rw [filter_map]
      rfl
    rw [hmap]
    exact h.keys.filter _
  literals := fun l hl => h.literals l (mem_of_mem_filter hl)
  declarations := h.declarations

theorem Valid.afterRun {t : TurnProgram} (h : s.Valid)
    (hplan : ∀ plan, t.plan = some plan → plan.Sound) (report : RunReport) :
    (s.afterRun t report).Valid := by
  unfold Session.afterRun
  split
  · have hdecls := Declaration.nodup_merge h.declarations t.declarations
    cases hp : t.plan with
    | none => exact ⟨h.nodup, h.keys, h.literals, hdecls⟩
    | some plan =>
      have hsound := hplan plan hp
      exact ⟨hsound.nodup, hsound.keys, hsound.literals, hdecls⟩
  · exact h

end Session

/-! ### Snapshots -/

/-- A file that is as it was, or no longer there. -/
def KeptOrLost (before after : Option Bytes) : Prop :=
  after = before ∨ after = none

theorem KeptOrLost.refl (x : Option Bytes) : KeptOrLost x x := .inl rfl

theorem KeptOrLost.trans (x y z : Option Bytes) (hxy : KeptOrLost x y)
    (hyz : KeptOrLost y z) :
    KeptOrLost x z := by
  rcases hyz with rfl | rfl
  · exact hxy
  · exact .inr rfl

theorem ValueStore.placeOf_blobPath (hdir : Path.isAbsolute store.dir = true)
    (files : FileTree) (key : Text) :
    files.placeOf (store.blobPath key) = Path.placeFrom [] (store.blobPath key) :=
  FileTree.placeOf_eq_of_isAbsolute (Path.isAbsolute_join hdir) files

/-- Storing a value under a key writes its encoded form there, or nothing. -/
theorem ValueStore.encode_fileAt? {α : Type} {key : Text}
    (hdir : Path.isAbsolute store.dir = true) (hkey : Path.IsName key)
    (htag : Path.IsName (key ++ ".type")) (c : Codec α) (tag : Text) (value : α)
    (files : FileTree) (hq : q = Path.placeFrom [] (store.blobPath key)) :
    (store.encode c key tag value files).2.fileAt? q = files.fileAt? q ∨
      ∃ bytes, c.encode value = some bytes ∧
        (store.encode c key tag value files).2.fileAt? q = some bytes := by
  unfold encode
  cases hbytes : c.encode value with
  | none => exact .inl rfl
  | some bytes =>
    have hdirs := files.fileAt?_createDirectories store.dir q
    dsimp only
    split
    next _ files₁ heq =>
      rw [heq] at hdirs
      exact .inl hdirs
    next _ files₁ heq =>
      rw [heq] at hdirs
      split
      · exact .inl hdirs
      next files₂ hwrite =>
        have hblob : files₂.fileAt? q = files.fileAt? q ∨ files₂.fileAt? q = some bytes := by
          have hself := FileTree.fileAt?_write_self hwrite
          rw [placeOf_blobPath hdir, ← hq, hdirs] at hself
          exact hself.symm
        have hother : q.getLast? ≠ some (key ++ ".type") := by
          rw [hq, blobPath, Path.placeFrom_join_name hkey]
          simp
        split
        · exact hblob.imp_right fun h => ⟨bytes, rfl, h⟩
        next files₃ htagged =>
          rw [fileAt?_writeText_name hdir htag htagged hother]
          exact hblob.imp_right fun h => ⟨bytes, rfl, h⟩

/-- A value that is read comes from the bytes under its key. -/
theorem ValueStore.exists_of_decode {α : Type} {key tag : Text} {c : Codec α}
    {files : FileTree} {value : α} (hdir : Path.isAbsolute store.dir = true)
    (h : store.decode c key tag files = .ok value) :
    ∃ bytes rest, files.fileAt? (Path.placeFrom [] (store.blobPath key)) = some bytes ∧
      c.decode bytes = some (value, rest) := by
  unfold decode at h
  split at h
  · cases h
  · split at h
    · cases h
    · split at h
      · cases h
      · cases h
      next bytes hread =>
        have hfile := FileTree.fileAt?_of_read hread
        rw [placeOf_blobPath hdir] at hfile
        split at h
        · cases h
        next value' rest hdecode =>
          cases h
          exact ⟨bytes, rest, hfile, hdecode⟩

namespace Workspace

/-- Whatever can be read from a snapshot is valid. -/
def SnapshotValid (ws : Workspace) (files : FileTree) : Prop :=
  ∀ bytes, files.fileAt? ws.snapshotPlace = some bytes →
    ∀ s rest, Codec.session.decode bytes = some (s, rest) → s.Valid

variable {ws : Workspace} {files files' : FileTree}

theorem SnapshotValid.of_none (h : files.fileAt? ws.snapshotPlace = none) :
    ws.SnapshotValid files := by
  intro bytes hbytes
  cases h.symm.trans hbytes

/-- A snapshot that is kept, or lost, stays valid. -/
theorem SnapshotValid.of_kept (h : ws.SnapshotValid files)
    (hkept : KeptOrLost (files.fileAt? ws.snapshotPlace) (files'.fileAt? ws.snapshotPlace)) :
    ws.SnapshotValid files' := by
  rcases hkept with hsame | hnone
  · intro bytes hbytes
    exact h bytes (hsame.symm.trans hbytes)
  · exact .of_none hnone

theorem SnapshotValid.save (h : ws.SnapshotValid files) (hs : s.Valid) :
    ws.SnapshotValid (s.save ws.store files).2 := by
  rcases ValueStore.encode_fileAt? ws.isAbsolute_store (by decide) (by decide) Codec.session
    Session.snapshotTag s files (q := ws.snapshotPlace)
      rfl with hsame | ⟨bytes, hencode, hbytes⟩
  · exact h.of_kept (.inl hsame)
  · -- What was written reads back as the session itself.
    have hback := Codec.readsBack_session (hs.keys.nodup hs.nodup) bytes [] hencode
    rw [append_nil] at hback
    intro bytes' hbytes' s' rest hdecode
    cases hbytes.symm.trans hbytes'
    cases hback.symm.trans hdecode
    exact hs

theorem SnapshotValid.load (h : ws.SnapshotValid files)
    (hload : Session.load ws.store files = .ok (some s)) : s.Valid := by
  unfold Session.load at hload
  split at hload
  next s' hdecode =>
    cases hload
    obtain ⟨bytes, rest, hbytes, hread⟩ :=
      ValueStore.exists_of_decode ws.isAbsolute_store hdecode
    exact h bytes hbytes s rest hread
  · cases hload
  · cases hload

end Workspace

/-! ### Steps -/

/-- Tools that write nothing into the directory of a store but files of variables. -/
def Toolchain.WritesOnlyVariables {σ : Type} (tools : Toolchain σ) (store : ValueStore) :
    Prop :=
  ∀ name : Text, (∀ x, name ≠ variableKey x) →
    tools.Respects KeptOrLost (Path.placeFrom [] store.dir ++ [name])

namespace Kernel

variable {σ : Type}

/-- What turns, resets and reopenings can lead to, from a workspace without a snapshot.  The
tools may be others in each turn. -/
inductive Reachable : Kernel → World σ → Prop where
  | opened {config : Config} {k : Kernel} {w w' : World σ}
      (fresh : w.files.fileAt? k.workspace.snapshotPlace = none)
      (start : Kernel.start config w = (.ok k, w')) : Reachable k w'
  | turn {tools : Toolchain σ} {input : Text} {k k' : Kernel} {w w' : World σ}
      {result : Except TurnError Text} (before : Reachable k w)
      (onlyVariables : tools.WritesOnlyVariables k.workspace.store)
      (turn : k.turn tools input w = .ok (result, k', w')) : Reachable k' w'
  | reset {k : Kernel} {w : World σ} (before : Reachable k w) :
      Reachable (k.reset w).1 (k.reset w).2
  | reopened {config : Config} {k k' : Kernel} {w w' : World σ} (before : Reachable k w)
      (start : Kernel.start config w = (.ok k', w')) (same : k'.workspace = k.workspace) :
      Reachable k' w'
  /-- A session that cannot be opened again changes nothing but files. -/
  | refused {config : Config} {k : Kernel} {w w' : World σ} {e : KernelError}
      (before : Reachable k w) (start : Kernel.start config w = (.error e, w')) :
        Reachable k w'

/-- An open session and its snapshot are both valid. -/
structure Consistent (k : Kernel) (w : World σ) : Prop where
  session : k.session.Valid
  snapshot : k.workspace.SnapshotValid w.files

/-- Opening a session changes no file but sources. -/
theorem start_fileAt? {w w' : World σ} {outcome : Except KernelError Kernel}
    (h : start config w = (outcome, w')) (hq : q.HoldsNoSource) :
    w'.files.fileAt? q = w.files.fileAt? q := by
  have hprepare : (Workspace.prepare config w).2.files.fileAt? q = w.files.fileAt? q := by
    unfold Workspace.prepare
    split
    · rfl
    next ws _ =>
      have hdirs := w.files.fileAt?_createDirectories ws.store.dir q
      split
      next _ files heq =>
        rw [heq] at hdirs
        exact hdirs
      next _ files heq =>
        rw [heq] at hdirs
        exact (Workspace.writeHelpers_fileAt? ws.absolute hq).trans hdirs
  have hw' : w' = (Workspace.prepare config w).2 := by
    unfold start at h
    split at h <;> next heq => cases h; rw [heq]
  rw [hw', hprepare]

/-- An opened session is empty or what the snapshot says. -/
theorem session_of_start {w w' : World σ} (h : start config w = (.ok k, w')) :
    k.session = .empty ∨ Session.load k.workspace.store w'.files = .ok (some k.session) := by
  unfold start at h
  split at h
  · cases h
  next ws _ _ =>
    cases h
    dsimp only
    cases Session.load ws.store w'.files with
    | error e => exact .inl rfl
    | ok session? =>
      cases session? with
      | none => exact .inl rfl
      | some session => exact .inr rfl

theorem start_eq_of_fst {w : World σ} (h : (start config w).1 = .ok k) :
    start config w = (.ok k, (start config w).2) := by
  rw [← h]

theorem holdsNoSource_snapshotPlace (ws : Workspace) : ws.snapshotPlace.HoldsNoSource :=
  Workspace.holdsNoSource_of_snapshotPlaces mem_cons_self

theorem consistent_start {w w' : World σ} (h : start config w = (.ok k, w'))
    (hsnapshot : k.workspace.SnapshotValid w.files) : Consistent k w' := by
  have hkept := start_fileAt? h (holdsNoSource_snapshotPlace k.workspace)
  have hsnapshot' := hsnapshot.of_kept (.inl hkept)
  refine ⟨?_, hsnapshot'⟩
  rcases session_of_start h with hempty | hload
  · rw [hempty]
    exact Session.valid_empty
  · exact hsnapshot'.load hload

theorem Consistent.reset {w : World σ} (h : Consistent k w) :
    Consistent (k.reset w).1 (k.reset w).2 :=
  ⟨Session.valid_empty, h.snapshot.save Session.valid_empty⟩

/-- A turn keeps an open session and its snapshot valid, whether its program could be run or
not. -/
theorem Consistent.turn {tools : Toolchain σ} {input : Text} {k' : Kernel} {w w' : World σ}
    {result : Except TurnError Text} (h : Consistent k w)
    (htools : tools.WritesOnlyVariables k.workspace.store)
    (hturn : k.turn tools input w = .ok (result, k', w')) : Consistent k' w' := by
  obtain ⟨⟨t, cache, w₁⟩, ht⟩ := turnProgram_ok tools k input w
  have hrespects : tools.Respects KeptOrLost k.workspace.snapshotPlace := by
    rw [k.workspace.snapshotPlace_eq]
    exact htools Session.snapshotKey fun x hx => by cases congrArg List.head? hx
  rcases hrun : runProgram tools k.config t.program k.workspace.programPath
    w₁ with ⟨outcome, w₂⟩
  -- Up to the end of the run nothing but the tools can have touched the snapshot.
  have hsnapshot : k.workspace.SnapshotValid w₂.files :=
    h.snapshot.of_kept (respects_of_run ht KeptOrLost.refl KeptOrLost.trans
      (holdsNoSource_snapshotPlace k.workspace) hrespects hrun)
  cases outcome with
  | error e =>
    cases hturn.symm.trans (turn_of_run_error ht hrun)
    exact ⟨h.session, hsnapshot⟩
  | ok report =>
    obtain ⟨result', gone, k'', rfl, hturn', -, -⟩ := turn_of_run_ok ht hrun
    cases hturn.symm.trans hturn'
    have hsession : ((k.session.afterRun t report).without gone).Valid :=
      (h.session.afterRun (sound_of_turnProgram tools k input w ht) report).without gone
    exact ⟨hsession, hsnapshot.save hsession⟩

theorem Reachable.consistent {w : World σ} (h : Reachable k w) : Consistent k w := by
  induction h with
  | opened fresh start => exact consistent_start start (.of_none fresh)
  | turn _ onlyVariables turn ih => exact ih.turn onlyVariables turn
  | reset _ ih => exact ih.reset
  | reopened _ start same ih => exact consistent_start start (same ▸ ih.snapshot)
  | @refused _ k _ _ _ _ start ih =>
    have hkept := start_fileAt? start (holdsNoSource_snapshotPlace k.workspace)
    exact ⟨ih.session, ih.snapshot.of_kept (.inl hkept)⟩

/-- **Every session that can be reached is valid.**  After any `Reachable` sequence of
openings, turns and resets the session is `Session.Valid`: its names are different, its
function literals stand under live names and in their order, and no two declarations have the
same identity. -/
theorem session_valid_of_reachable {k : Kernel} {w : World σ} (h : Reachable k w) :
    k.session.Valid :=
  h.consistent.session

/-! ### A session that is opened again -/

/-- Tools that find nothing wrong with a program, print nothing, and leave one variable in a
store. -/
def storingTools (store : ValueStore) (x content : Text) : Toolchain Unit where
  fixImports _ w := (.ok ⟨[], [], true⟩, w)
  run _ _ w :=
    match w.files.writeText (store.blobPath (variableKey x)) content with
    | .ok files => (.ok ⟨[], [], true⟩, { w with files := files })
    | .error _ => (.ok ⟨[], [], true⟩, w)
  build _ w := (.ok ⟨[], [], true⟩, w)

theorem writesOnlyVariables_storingTools {x : Text} (content : Text)
    (hdir : Path.isAbsolute store.dir = true) (hx : Path.IsName (variableKey x)) :
    (storingTools store x content).WritesOnlyVariables store := by
  intro name hname
  refine ⟨fun _ _ => .refl _, fun _ _ w => ?_, fun _ _ => .refl _⟩
  unfold storingTools
  dsimp only
  split
  next files hwrite =>
    exact .inl (fileAt?_writeText_name hdir hx hwrite (by simpa using hname x))
  · exact .refl _

/-- A session with a function literal and a type. -/
def sampleSession : Session :=
  ⟨["f"], [("f", "func() int \x7b return 1 \x7d")], [⟨.typeDecl, "T", "type T int"⟩]⟩

/-- What a turn has defined is found again when the session is reopened, and is valid. -/
theorem session_valid_of_reachable_reopened :
    ∃ (k : Kernel) (w : World Unit), Reachable k w ∧
      k.session = sampleSession ∧ k.session.Valid := by
  let tools := storingTools sampleKernel.workspace.store "f" "func() int"
  let input : Text := "f := func() int \x7b return 1 \x7d; type T int"
  let w := (start sampleConfig sampleWorld).2
  have hopened : Reachable sampleKernel w :=
    .opened (by decide) (start_eq_of_fst (w := sampleWorld) (by decide +kernel))
  obtain ⟨⟨result, k, w'⟩, hturn⟩ := turn_ok tools sampleKernel input w
  have hvariables : tools.WritesOnlyVariables sampleKernel.workspace.store :=
    writesOnlyVariables_storingTools "func() int" rfl (by decide)
  have hstored : Reachable k w' := hopened.turn hvariables hturn
  have heval : (sampleKernel.turn tools input w).toOption.map (fun r =>
      (r.2.1.workspace, (start sampleConfig r.2.2).1)) =
      some (sampleKernel.workspace, .ok { sampleKernel with session := sampleSession }) := by
    decide +kernel
  rw [hturn] at heval
  simp only [Except.toOption, Option.map_some, Option.some.injEq, Prod.mk.injEq] at heval
  have hreopened : Reachable { sampleKernel with session := sampleSession }
      (start sampleConfig w').2 :=
    hstored.reopened (start_eq_of_fst heval.2) heval.1.symm
  exact ⟨_, _, hreopened, rfl, session_valid_of_reachable hreopened⟩

end Kernel

end Notebook
