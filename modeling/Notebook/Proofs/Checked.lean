import Mathlib.Data.List.Forall2
import Notebook.Span

/-!
# Checked work on lists

A stage that looks at one thing after the other succeeds if it succeeds on each of them.  The
results stand in the order of the things looked at, so what holds between two things carries
over to their results.
-/

namespace Notebook

open List

namespace Checked

/-- Work in two steps succeeds if both steps do. -/
theorem bind_eq_ok {ε α β : Type} {x : Except ε α} {f : α → Except ε β} {b : β} :
    (x >>= f) = .ok b ↔ ∃ a, x = .ok a ∧ f a = .ok b := by
  cases x with
  | error e => simp [bind, Except.bind]
  | ok a => simp [bind, Except.bind]

theorem map_eq_ok {ε α β : Type} {x : Except ε α} {f : α → β} {b : β} :
    x.map f = .ok b ↔ ∃ a, x = .ok a ∧ f a = b := by
  cases x with
  | error e => simp [Except.map]
  | ok a => simp [Except.map]

theorem ok_bind {ε α β : Type} (a : α) (f : α → Except ε β) : (Except.ok a >>= f) = f a :=
  rfl

variable {α β : Type} {f : α → Checked β} {P : α → β → Prop} {xs : List α}

/-- Work whose result on every member of a list is known. -/
theorem mapM_eq {g : α → β} (h : ∀ x ∈ xs, f x = .ok (g x)) : xs.mapM f = .ok (xs.map g) := by
  induction xs with
  | nil => rfl
  | cons x xs ih =>
    rw [mapM_cons, h x mem_cons_self, ih fun y hy =>
      h y (mem_cons_of_mem x hy)]
    rfl

/-- As `mapM_eq`, where the work may have no result on a member. -/
theorem filterMapM_eq {f : α → Checked (Option β)} {g : α → Option β}
    (h : ∀ x ∈ xs, f x = .ok (g x)) :
    (do return (← xs.mapM f).filterMap id : Checked (List β)) = .ok (xs.filterMap g) := by
  rw [mapM_eq h, ok_bind, filterMap_map]
  rfl

/-- As `mapM_eq`, where the work picks out members. -/
theorem filterM_eq {p : α → Checked Bool} {q : α → Bool} (h : ∀ x ∈ xs, p x = .ok (q x)) :
    xs.filterM p = .ok (xs.filter q) := by
  have haux (acc : List α) : xs.filterAuxM p acc = .ok ((xs.filter q).reverse ++ acc) := by
    induction xs generalizing acc with
    | nil => rfl
    | cons x xs ih =>
      rw [List.filterAuxM, h x mem_cons_self, ok_bind,
        ih fun y hy => h y (mem_cons_of_mem x hy)]
      cases hx : q x <;> simp [hx]
  rw [List.filterM, haux, append_nil, ok_bind, reverse_reverse]
  rfl

/-- Work that succeeds on every member of a list succeeds on the list, with one result for
each. -/
theorem mapM_forall₂ (h : ∀ x ∈ xs, ∃ y, f x = .ok y ∧ P x y) :
    ∃ ys, xs.mapM f = .ok ys ∧ Forall₂ P xs ys := by
  induction xs with
  | nil => exact ⟨[], rfl, .nil⟩
  | cons x xs ih =>
    obtain ⟨y, hy, hP⟩ := h x mem_cons_self
    obtain ⟨ys, hys, hPs⟩ := ih fun z hz => h z (mem_cons_of_mem x hz)
    refine ⟨y :: ys, ?_, .cons hP hPs⟩
    rw [mapM_cons, hy, hys]
    rfl

theorem mapM_ok (h : ∀ x ∈ xs, ∃ y, f x = .ok y) : ∃ ys, xs.mapM f = .ok ys := by
  obtain ⟨ys, hys, -⟩ := mapM_forall₂ (P := fun _ _ => True) fun x hx =>
    (h x hx).imp fun _ hy => ⟨hy, trivial⟩
  exact ⟨ys, hys⟩

theorem anyM_ok {p : α → Checked Bool} (h : ∀ x ∈ xs, ∃ b, p x = .ok b) :
    ∃ b, xs.anyM p = .ok b := by
  induction xs with
  | nil => exact ⟨false, rfl⟩
  | cons x xs ih =>
    obtain ⟨b, hb⟩ := h x mem_cons_self
    rw [List.anyM, hb, ok_bind]
    cases b with
    | true => exact ⟨true, rfl⟩
    | false => exact ih fun y hy => h y (mem_cons_of_mem x hy)

/-- The results of work on a list are those of its members. -/
theorem forall₂_of_mapM {ys : List β} (h : xs.mapM f = .ok ys) :
    Forall₂ (fun x y => f x = .ok y) xs ys := by
  induction xs generalizing ys with
  | nil =>
    cases h
    exact .nil
  | cons x xs ih =>
    rw [mapM_cons] at h
    obtain ⟨z, hz, h⟩ := bind_eq_ok.1 h
    obtain ⟨zs, hzs, h⟩ := bind_eq_ok.1 h
    cases h
    exact .cons hz (ih hzs)

/-- The results of work on a list whose members have known results. -/
theorem mapM_of_forall₂ {γ : Type} {g : γ → β} {zs : List γ}
    (h : Forall₂ (fun x z => f x = .ok (g z)) xs zs) : xs.mapM f = .ok (zs.map g) := by
  induction h with
  | nil => rfl
  | cons hx _ ih =>
    rw [mapM_cons, hx, ih]
    rfl

/-- Some of the results of work on a list are the results of some of its members. -/
theorem exists_sublist_of_mapM {g : α → Checked (Option β)} {os : List (Option β)}
    (h : xs.mapM g = .ok os) {ys : List β} (hys : ys.Sublist (os.filterMap id)) :
    ∃ zs : List α, zs.Sublist xs ∧
      Forall₂ (fun x y => x ∈ xs ∧ g x = .ok (some y)) zs ys := by
  induction xs generalizing os ys with
  | nil =>
    cases h
    cases hys
    exact ⟨[], .slnil, .nil⟩
  | cons x xs ih =>
    rw [mapM_cons] at h
    obtain ⟨o, ho, h⟩ := bind_eq_ok.1 h
    obtain ⟨os, hos, h⟩ := bind_eq_ok.1 h
    cases h
    have hlater (z : α) (y : β) (hz : z ∈ xs ∧ g z = .ok (some y)) :
        z ∈ x :: xs ∧ g z = .ok (some y) :=
      ⟨mem_cons_of_mem x hz.1, hz.2⟩
    cases o with
    | none =>
      obtain ⟨zs, hzs, hall⟩ := ih hos hys
      exact ⟨zs, hzs.cons x, hall.imp hlater⟩
    | some b =>
      rw [filterMap_cons] at hys
      rcases sublist_cons_iff.1 hys with hys | ⟨ys', rfl, hys'⟩
      · obtain ⟨zs, hzs, hall⟩ := ih hos hys
        exact ⟨zs, hzs.cons x, hall.imp hlater⟩
      · obtain ⟨zs, hzs, hall⟩ := ih hos hys'
        exact ⟨x :: zs, hzs.cons_cons x,
          .cons ⟨mem_cons_self, ho⟩ (hall.imp hlater)⟩

end Checked

section Forall₂

variable {α β : Type} {P : α → β → Prop} {xs : List α} {ys : List β}

theorem exists_of_forall₂ (hP : Forall₂ P xs ys) {y : β} (hy : y ∈ ys) :
    ∃ x ∈ xs, P x y := by
  induction hP with
  | nil => cases hy
  | cons hxy _ ih =>
    rcases mem_cons.1 hy with rfl | hy
    · exact ⟨_, mem_cons_self, hxy⟩
    · obtain ⟨x, hx, h⟩ := ih hy
      exact ⟨x, mem_cons_of_mem _ hx, h⟩

/-- What holds between the members of a list carries over to their partners. -/
theorem pairwise_of_forall₂ {R : α → α → Prop} {S : β → β → Prop} (hP : Forall₂ P xs ys)
    (hR : xs.Pairwise R) (h : ∀ x x' y y', R x x' → P x y → P x' y' → S y y') :
    ys.Pairwise S := by
  induction hP with
  | nil => exact .nil
  | cons hxy hP ih =>
    obtain ⟨hx, hR⟩ := pairwise_cons.1 hR
    refine pairwise_cons.2 ⟨?_, ih hR⟩
    intro y' hy'
    obtain ⟨x', hx', hxy'⟩ := exists_of_forall₂ hP hy'
    exact h _ _ _ _ (hx x' hx') hxy hxy'

/-- Each result of work on a list is the result of one member. -/
theorem Checked.exists_of_mapM {f : α → Checked β} (h : xs.mapM f = .ok ys) {y : β}
    (hy : y ∈ ys) :
    ∃ x ∈ xs, f x = .ok y :=
  exists_of_forall₂ (forall₂_of_mapM h) hy

end Forall₂

end Notebook
