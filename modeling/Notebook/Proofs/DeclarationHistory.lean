import Notebook.Proofs.SessionInvariant

/-!
# The declarations of a history

Declarations come in batches, one turn after the other, and each is put in the place of its
earlier version or at the end.  What is there after all the turns can be said without them:
every identity of the history once, in the order in which the identities came up first, each
in its last version.  So it does not matter how a history is cut into batches.  Nor does it
matter whether a batch comes once or twice in a row, whatever was there before: a declaration
that is put in again finds its place, and declarations with places do not get in each other's
way.

## Main statements

* `Declaration.merge_nil_eq_ofHistory`: one batch after the empty list
* `Declaration.merge_merge`: a batch that comes twice in a row
* `Declaration.foldl_merge_batches`: all batches, however they are cut
-/

namespace Notebook

open List

variable {d e : Declaration} {ds existing pending : List Declaration}

namespace Declaration

/-- The last version in a history of what has an identity. -/
def lastVersion? (history : List Declaration) (i : DeclarationKind × Text) :
    Option Declaration :=
  history.findRev? fun d => d.identity == i

/-- What a history comes to: each of its identities once, in the order in which they come up
first, and in the last version. -/
def ofHistory (history : List Declaration) : List Declaration :=
  (history.map identity).eraseDups.filterMap (lastVersion? history)

/-! ### Reading a history to its end -/

theorem lastVersion?_concat (history : List Declaration) (d : Declaration)
    (i : DeclarationKind × Text) :
    lastVersion? (history ++ [d]) i =
      if d.identity = i then some d else lastVersion? history i := by
  simp only [lastVersion?, findRev?_eq_find?_reverse, reverse_append,
    reverse_singleton, singleton_append, find?_cons]
  split <;> simp_all

/-- Putting a declaration in leaves no other version of it, if there was at most one. -/
theorem mem_put_of_nodup (hds : (ds.map identity).Nodup) (h : e ∈ put ds d) :
    e = d ∨ e ∈ ds ∧ e.identity ≠ d.identity := by
  induction ds with
  | nil => exact .inl (mem_singleton.1 h)
  | cons a ds ih =>
    rw [map_cons, nodup_cons] at hds
    rw [put] at h
    split at h
    next hsame =>
      rw [sameIdentity_iff] at hsame
      rcases mem_cons.1 h with rfl | h
      · exact .inl rfl
      · refine .inr ⟨mem_cons_of_mem a h, fun heq => hds.1 ?_⟩
        rw [hsame, ← heq]
        exact mem_map_of_mem h
    next hother =>
      rw [sameIdentity_iff] at hother
      rcases mem_cons.1 h with rfl | h
      · exact .inr ⟨mem_cons_self, hother⟩
      · exact (ih hds.2 h).imp_right fun hold => ⟨mem_cons_of_mem a hold.1, hold.2⟩

theorem mem_put_self (ds : List Declaration) (d : Declaration) : d ∈ put ds d := by
  induction ds with
  | nil => exact mem_singleton_self d
  | cons a ds ih =>
    rw [put]
    split
    · exact mem_cons_self
    · exact mem_cons_of_mem a ih

theorem mem_put_of_ne (h : e ∈ ds) (hne : e.identity ≠ d.identity) : e ∈ put ds d := by
  induction ds with
  | nil => cases h
  | cons a ds ih =>
    rw [put]
    split
    next hsame =>
      rcases mem_cons.1 h with rfl | h
      · exact absurd (sameIdentity_iff.1 hsame) hne
      · exact mem_cons_of_mem d h
    next =>
      rcases mem_cons.1 h with rfl | h
      · exact mem_cons_self
      · exact mem_cons_of_mem a (ih h)

/-- A declaration that is not made again stays. -/
theorem mem_merge_of_notMem (h : d ∈ existing) (hnot : d.identity ∉ pending.map identity) :
    d ∈ merge existing pending := by
  induction pending generalizing existing with
  | nil => exact h
  | cons e pending ih =>
    rw [map_cons, mem_cons, not_or] at hnot
    exact ih (mem_put_of_ne h hnot.1) hnot.2

/-- What is declared once is there in the end. -/
theorem mem_merge_of_nodup (hnodup : (pending.map identity).Nodup) (hd : d ∈ pending) :
    d ∈ merge existing pending := by
  induction pending generalizing existing with
  | nil => cases hd
  | cons e pending ih =>
    rw [map_cons, nodup_cons] at hnodup
    rw [merge_cons]
    rcases mem_cons.1 hd with rfl | hd
    · exact mem_merge_of_notMem (mem_put_self existing d) hnodup.1
    · exact ih hnodup.2 hd

/-- The identities of a history, in the order in which they come up first. -/
theorem map_identity_merge_nil (history : List Declaration) :
    (merge [] history).map identity = (history.map identity).eraseDups := by
  induction history using reverseRecOn with
  | nil => rfl
  | append_singleton history d ih =>
    have hnew : [d.identity].removeAll (history.map identity) =
        if d.identity ∈ history.map identity then [] else [d.identity] := by
      rw [List.removeAll, filter_singleton]
      by_cases h : d.identity ∈ history.map identity <;> simp [h]
    rw [merge_append, merge_cons, merge_nil, map_identity_put, ih, map_append,
      map_singleton, eraseDups_append, hnew]
    simp only [mem_eraseDups]
    split
    · simp
    · simp [eraseDups_cons]

/-- Each declaration that is there in the end is the last version of it. -/
theorem lastVersion?_of_mem_merge {history : List Declaration} (h : e ∈ merge [] history) :
    lastVersion? history e.identity = some e := by
  induction history using reverseRecOn with
  | nil => cases h
  | append_singleton history d ih =>
    rw [merge_append, merge_cons, merge_nil] at h
    rw [lastVersion?_concat]
    rcases mem_put_of_nodup (nodup_merge (by simp) history) h with rfl | ⟨hmem, hne⟩
    · exact if_pos rfl
    · rw [if_neg hne.symm]
      exact ih hmem

/-- What is there after a history that starts from nothing. -/
theorem merge_nil_eq_ofHistory (history : List Declaration) :
    merge [] history = ofHistory history := by
  have hlast : (merge [] history).filterMap (fun e => lastVersion? history e.identity) =
      (merge [] history).filterMap some :=
    filterMap_congr fun e he => lastVersion?_of_mem_merge he
  rw [ofHistory, ← map_identity_merge_nil, filterMap_map]
  exact (filterMap_some.symm.trans hlast.symm)

theorem foldl_merge (existing : List Declaration) (batches : List (List Declaration)) :
    batches.foldl merge existing = merge existing batches.flatten := by
  induction batches generalizing existing with
  | nil => rfl
  | cons p ps ih => rw [foldl_cons, ih, List.flatten_cons, merge_append]

/-! ### A batch that comes again -/

/-- Of two versions that are put in one after the other, the second stays. -/
theorem put_put (h : d.identity = e.identity) (ds : List Declaration) :
    put (put ds d) e = put ds e := by
  induction ds with
  | nil =>
    have hsame : d.sameIdentity e = true := sameIdentity_iff.2 h
    exact if_pos hsame
  | cons a ds ih =>
    have hiff : a.sameIdentity d = true ↔ a.sameIdentity e = true := by
      rw [sameIdentity_iff, sameIdentity_iff, h]
    by_cases ha : a.sameIdentity d = true
    · rw [put, if_pos ha, put, if_pos (sameIdentity_iff.2 h), put, if_pos (hiff.1 ha)]
    · rw [put, if_neg ha, put, if_neg (ha ∘ hiff.2), put, if_neg (ha ∘ hiff.2), ih]

/-- Declarations of different things can change places, if the second one has a place
already. -/
theorem put_comm (h : d.identity ≠ e.identity) (he : e.identity ∈ ds.map identity) :
    put (put ds d) e = put (put ds e) d := by
  induction ds with
  | nil => cases he
  | cons a ds ih =>
    by_cases had : a.identity = d.identity
    · have hae : ¬a.sameIdentity e = true :=
        fun hsame => h (had.symm.trans (sameIdentity_iff.1 hsame))
      have hde : ¬d.sameIdentity e = true := h ∘ sameIdentity_iff.1
      rw [put, if_pos (sameIdentity_iff.2 had), put, if_neg hde, put, if_neg hae, put,
        if_pos (sameIdentity_iff.2 had)]
    · have had' : ¬a.sameIdentity d = true := had ∘ sameIdentity_iff.1
      rw [put, if_neg had', put, put]
      by_cases hae : a.identity = e.identity
      · have hed : ¬e.sameIdentity d = true := fun hsame => h (sameIdentity_iff.1 hsame).symm
        rw [if_pos (sameIdentity_iff.2 hae), if_pos (sameIdentity_iff.2 hae), put, if_neg hed]
      · have hae' : ¬a.sameIdentity e = true := hae ∘ sameIdentity_iff.1
        have hmem : e.identity ∈ ds.map identity :=
          (mem_cons.1 he).resolve_left fun heq => hae heq.symm
        rw [if_neg hae', if_neg hae', put, if_neg had', ih hmem]

theorem mem_map_identity_put {i : DeclarationKind × Text} :
    i ∈ (put ds d).map identity ↔ i ∈ ds.map identity ∨ i = d.identity := by
  rw [map_identity_put]
  split <;> grind

theorem mem_map_identity_merge {i : DeclarationKind × Text} :
    i ∈ (merge existing pending).map identity ↔
      i ∈ existing.map identity ∨ i ∈ pending.map identity := by
  induction pending generalizing existing with
  | nil => simp
  | cons d ds ih =>
    rw [merge_cons, ih, mem_map_identity_put, map_cons, mem_cons, or_assoc]

/-- A declaration that is put in behind a batch need not have been put in before it, if
everything in the batch has a place. -/
theorem put_merge_put (d : Declaration) (h : ∀ e ∈ pending, e.identity ∈ ds.map identity) :
    put (merge (put ds d) pending) d = put (merge ds pending) d := by
  induction pending generalizing ds with
  | nil => exact put_put rfl ds
  | cons e pending ih =>
    rw [merge_cons, merge_cons]
    by_cases hde : d.identity = e.identity
    · rw [put_put hde]
    · rw [put_comm hde (h e mem_cons_self)]
      exact ih fun e' he' => mem_map_identity_put.2 (.inl (h e' (mem_cons_of_mem e he')))

/-- A batch that comes twice in a row changes nothing the second time. -/
theorem merge_merge (existing pending : List Declaration) :
    merge (merge existing pending) pending = merge existing pending := by
  induction pending using reverseRecOn with
  | nil => rfl
  | append_singleton pending d ih =>
    have hplaces : ∀ e ∈ pending, e.identity ∈ (merge existing pending).map identity :=
      fun e he => mem_map_identity_merge.2 (.inr (mem_map_of_mem he))
    calc merge (merge existing (pending ++ [d])) (pending ++ [d])
        = put (merge (put (merge existing pending) d) pending) d := by
          simp only [merge_append, merge_cons, merge_nil]
      _ = put (merge (merge existing pending) pending) d := put_merge_put d hplaces
      _ = merge existing (pending ++ [d]) := by
          rw [ih, merge_append, merge_cons, merge_nil]

/-- **The declarations of a history.**  Batches that `merge` takes one after the other, from
nothing on, come to `ofHistory` of all of them: each identity once, in the order in which they
come up first, and in the last version.  Another cut of the same history into batches leads to
the same, and so does a batch that is merged a second time. -/
theorem foldl_merge_batches (batches : List (List Declaration)) :
    batches.foldl merge [] = ofHistory batches.flatten ∧
      (∀ others : List (List Declaration), others.flatten = batches.flatten →
        others.foldl merge [] = batches.foldl merge []) ∧
      ∀ existing p, merge (merge existing p) p = merge existing p := by
  refine ⟨?_, fun others hothers => ?_, merge_merge⟩
  · rw [foldl_merge, merge_nil_eq_ofHistory]
  · rw [foldl_merge, foldl_merge, hothers]

/-- A function in three versions, two of them in one batch, and a type of the same name
between them. -/
theorem foldl_merge_batches_versions :
    let f (source : Text) : Declaration := ⟨.function, "f", source⟩
    let t : Declaration := ⟨.typeDecl, "f", "type f int"⟩
    [[f "1", t, f "2"], [f "3"]].foldl merge [] = [f "3", t] ∧
      [[f "1"], [], [t, f "2", f "3"]].foldl merge [] = [f "3", t] ∧
      merge (merge [t] [f "1", t, f "2"]) [f "1", t, f "2"] = [t, f "2"] := by
  intro f t
  obtain ⟨hhistory, hcut, hagain⟩ := foldl_merge_batches [[f "1", t, f "2"], [f "3"]]
  have hlast : ofHistory [f "1", t, f "2", f "3"] = [f "3", t] := by decide
  refine ⟨hhistory.trans hlast, (hcut _ rfl).trans (hhistory.trans hlast), ?_⟩
  rw [hagain]
  decide

end Declaration

end Notebook
