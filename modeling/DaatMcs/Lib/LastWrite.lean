/-
# The last write stays

Writers come in groups, one group after the other, and each of them may write
a value to a slot; the last one stays. `lastWrite_flatten_iff`: what stays
does not depend on the order inside the groups iff, in every slot, the
writers of the last group that writes to it agree.

A system that shows in each slot what its steps write there ends with the
last write (`foldl_lastWrite`). When it drops the writes of one value, its
runs still end as they should iff the last write is not one of these or
there was nothing to overwrite (`lastWrite_dropped_iff`).
-/
import Mathlib.Data.List.Forall2
import Mathlib.Data.List.Perm.Basic
import Mathlib.Tactic.Common

namespace DaatMcs

variable {φ σ υ : Type*} (write : φ → σ → Option υ)

/-- What is left in a slot after the writers. -/
def lastWrite : List φ → σ → Option υ
  | [], _ => none
  | f :: fs, s => (lastWrite fs s).or (write f s)

/-- The writers that write to the slot write the same. -/
def Agree (fs : List φ) (s : σ) : Prop :=
  ∀ f ∈ fs, ∀ f' ∈ fs, ∀ v v', write f s = some v → write f' s = some v' → v = v'

/-- The groups that no later group overwrites agree. -/
def GroupsAgree (groups : List (List φ)) : Prop :=
  ∀ pre g post, groups = pre ++ g :: post → ∀ s, (∀ f ∈ post.flatten, write f s = none) →
    Agree write g s

/-- The same groups, each in some order. -/
def Reordered (groups groups' : List (List φ)) : Prop := List.Forall₂ List.Perm groups groups'

variable {write}

theorem lastWrite_append (fs gs : List φ) (s : σ) :
    lastWrite write (fs ++ gs) s = (lastWrite write gs s).or (lastWrite write fs s) := by
  induction fs with
  | nil => rw [List.nil_append, lastWrite, Option.or_none]
  | cons f fs ih => rw [List.cons_append, lastWrite, ih, lastWrite, Option.or_assoc]

theorem lastWrite_eq_none {fs : List φ} {s : σ} :
    lastWrite write fs s = none ↔ ∀ f ∈ fs, write f s = none := by
  induction fs with
  | nil => exact ⟨fun _ f hf => absurd hf List.not_mem_nil, fun _ => rfl⟩
  | cons f fs ih => rw [lastWrite, Option.or_eq_none_iff, ih, List.forall_mem_cons, and_comm]

theorem exists_of_lastWrite {fs : List φ} {s : σ} {v : υ} (h : lastWrite write fs s = some v) :
    ∃ f ∈ fs, write f s = some v := by
  induction fs with
  | nil => cases h
  | cons f fs ih =>
    rw [lastWrite, Option.or_eq_some_iff] at h
    rcases h with h | ⟨-, h⟩
    · obtain ⟨f', hf', hv⟩ := ih h
      exact ⟨f', List.mem_cons_of_mem f hf', hv⟩
    · exact ⟨f, List.mem_cons_self, h⟩

/-! ### Runs -/

/-- Where each step leaves what it writes, or what was there, a run leaves the
last write. -/
theorem foldl_lastWrite {α : Type*} (get : α → σ → υ) {step : α → φ → α} {s : σ} :
    ∀ {fs : List φ}, (∀ f ∈ fs, ∀ a, get (step a f) s = (write f s).getD (get a s)) → ∀ a,
      get (fs.foldl step a) s = (lastWrite write fs s).getD (get a s)
  | [], _, _ => rfl
  | f :: fs, hstep, a => by
    rw [List.forall_mem_cons] at hstep
    rw [List.foldl_cons, foldl_lastWrite get hstep.2, hstep.1, lastWrite]
    cases lastWrite write fs s <;> rfl

section Dropped

variable [DecidableEq υ] {v₀ : υ}

variable (write v₀) in
/-- The writes of the value `v₀` are lost. -/
def dropped (f : φ) (s : σ) : Option υ := if write f s = some v₀ then none else write f s

theorem dropped_eq_none {f : φ} {s : σ} :
    dropped write v₀ f s = none ↔ ∀ v, write f s = some v → v = v₀ := by
  unfold dropped
  split
  · next h => simp [h]
  · next h =>
    cases hf : write f s with
    | none => simp
    | some v => simpa [hf] using h

/-- Nothing is written where all writes are lost. -/
theorem lastWrite_dropped_eq_none {fs : List φ} {s : σ} :
    lastWrite (dropped write v₀) fs s = none ↔ ∀ f ∈ fs, ∀ v, write f s = some v → v = v₀ := by
  rw [lastWrite_eq_none]
  exact forall₂_congr fun f hf => dropped_eq_none

theorem lastWrite_dropped_of_eq_none {fs : List φ} {s : σ} (h : lastWrite write fs s = none) :
    lastWrite (dropped write v₀) fs s = none := by
  rw [lastWrite_eq_none] at h
  rw [lastWrite_dropped_eq_none]
  intro f hf v hv
  rw [h f hf] at hv
  cases hv

/-- What was not lost is another value. -/
theorem lastWrite_dropped_ne {fs : List φ} {s : σ} : lastWrite (dropped write v₀) fs s ≠ some v₀ := by
  intro h
  obtain ⟨f, -, hw⟩ := exists_of_lastWrite h
  unfold dropped at hw
  split at hw
  · cases hw
  · contradiction

theorem lastWrite_dropped_of_ne {fs : List φ} {s : σ} {v : υ} (hv : v ≠ v₀)
    (h : lastWrite write fs s = some v) : lastWrite (dropped write v₀) fs s = some v := by
  induction fs with
  | nil => cases h
  | cons f fs ih =>
    rw [lastWrite, Option.or_eq_some_iff] at h
    rw [lastWrite, Option.or_eq_some_iff]
    rcases h with h | ⟨hnone, h⟩
    · exact Or.inl (ih h)
    · have hf : dropped write v₀ f s = some v := by
        rw [dropped, h, if_neg (fun h => hv (Option.some.inj h))]
      exact Or.inr ⟨lastWrite_dropped_of_eq_none hnone, hf⟩

/-- A lost write of `v₀` shows iff it is the last one and there was something
else to overwrite, at the start or later. -/
theorem lastWrite_dropped_iff {fs : List φ} {s : σ} {v : υ} :
    (lastWrite (dropped write v₀) fs s).getD v = (lastWrite write fs s).getD v ↔
      lastWrite write fs s ≠ some v₀ ∨ (v = v₀ ∧ ∀ f ∈ fs, ∀ v', write f s = some v' → v' = v₀) := by
  cases h : lastWrite write fs s with
  | none =>
    rw [lastWrite_dropped_of_eq_none h]
    simp
  | some v₁ =>
    by_cases hv : v₁ = v₀
    · subst hv
      rw [← lastWrite_dropped_eq_none]
      cases hd : lastWrite (dropped write v₁) fs s with
      | none => simp
      | some v₂ =>
        have hne : v₂ ≠ v₁ := by
          rintro rfl
          exact lastWrite_dropped_ne hd
        simp [hne]
    · rw [lastWrite_dropped_of_ne hv h]
      simp [hv]

end Dropped

/-! ### The order of the writers -/

/-- A writer whom no other contradicts is the last. -/
theorem Agree.lastWrite_of_mem {fs : List φ} {s : σ} (h : Agree write fs s) {f : φ} (hf : f ∈ fs) {v : υ}
    (hv : write f s = some v) : lastWrite write fs s = some v := by
  cases hlast : lastWrite write fs s with
  | none => rw [lastWrite_eq_none.mp hlast f hf] at hv; cases hv
  | some v' =>
    obtain ⟨f', hf', hv'⟩ := exists_of_lastWrite hlast
    rw [h f hf f' hf' v v' hv hv']

theorem Agree.lastWrite_eq {fs gs : List φ} {s : σ} (h : Agree write fs s) (hp : fs.Perm gs) :
    lastWrite write gs s = lastWrite write fs s := by
  cases hf : lastWrite write fs s with
  | none =>
    rw [lastWrite_eq_none] at hf ⊢
    exact fun g hg => hf g (hp.mem_iff.mpr hg)
  | some v =>
    obtain ⟨f, hmem, hv⟩ := exists_of_lastWrite hf
    have hagree : Agree write gs s := fun g hg g' hg' => h g (hp.mem_iff.mpr hg) g' (hp.mem_iff.mpr hg')
    exact hagree.lastWrite_of_mem (hp.mem_iff.mp hmem) hv

/-- Any of the writers may come last. -/
theorem exists_perm_last {fs : List φ} {f : φ} (hf : f ∈ fs) : ∃ gs, (gs ++ [f]).Perm fs := by
  obtain ⟨l₁, l₂, rfl⟩ := List.append_of_mem hf
  exact ⟨l₁ ++ l₂, (List.perm_append_singleton f _).trans List.perm_middle.symm⟩

/-! ### Groups -/

theorem Reordered.refl (groups : List (List φ)) : Reordered groups groups :=
  List.forall₂_same.mpr fun _ _ => List.Perm.refl _

theorem GroupsAgree.tail {g : List φ} {groups : List (List φ)} (h : GroupsAgree write (g :: groups)) :
    GroupsAgree write groups :=
  fun pre g' post heq => h (g :: pre) g' post (congrArg (g :: ·) heq)

theorem GroupsAgree.lastWrite_eq {groups groups' : List (List φ)} (h : GroupsAgree write groups)
    (hre : Reordered groups groups') (s : σ) :
    lastWrite write groups'.flatten s = lastWrite write groups.flatten s := by
  induction hre with
  | nil => rfl
  | @cons g g' groups groups' hg hrest ih =>
    rw [List.flatten_cons, List.flatten_cons, lastWrite_append, lastWrite_append, ih h.tail]
    -- only where the later groups do not write does the first one count
    cases hlast : lastWrite write groups.flatten s with
    | some v => rfl
    | none =>
      have hagree : Agree write g s := h [] g groups rfl s (lastWrite_eq_none.mp hlast)
      rw [Option.none_or, Option.none_or, hagree.lastWrite_eq hg]

/-- A writer of a group put last decides, if no later group writes. -/
theorem lastWrite_put_last {pre post : List (List φ)} {gs : List φ} {f : φ} {s : σ} {v : υ}
    (hpost : ∀ f' ∈ post.flatten, write f' s = none) (hv : write f s = some v) :
    lastWrite write (pre ++ (gs ++ [f]) :: post).flatten s = some v := by
  have hf : lastWrite write [f] s = some v := by rw [lastWrite, lastWrite, hv, Option.none_or]
  rw [List.flatten_append, List.flatten_cons, lastWrite_append, lastWrite_append,
    lastWrite_eq_none.mpr hpost, lastWrite_append, hf]
  rfl

/-- **Main result.** What stays is the same for every order inside the groups
iff the groups that are not overwritten agree. -/
theorem lastWrite_flatten_iff {groups : List (List φ)} :
    (∀ groups', Reordered groups groups' → ∀ s,
      lastWrite write groups'.flatten s = lastWrite write groups.flatten s) ↔ GroupsAgree write groups := by
  constructor
  · rintro h pre g post rfl s hpost f hf f' hf' v v' hv hv'
    have put : ∀ {f : φ}, f ∈ g → ∀ {v : υ}, write f s = some v →
        lastWrite write (pre ++ g :: post).flatten s = some v := by
      intro f hf v hv
      obtain ⟨gs, hperm⟩ := exists_perm_last hf
      have hre : Reordered (pre ++ g :: post) (pre ++ (gs ++ [f]) :: post) :=
        List.rel_append (Reordered.refl pre) (.cons hperm.symm (Reordered.refl post))
      rw [← h _ hre s, lastWrite_put_last hpost hv]
    exact Option.some.inj ((put hf hv).symm.trans (put hf' hv'))
  · exact fun h groups' hre => h.lastWrite_eq hre

end DaatMcs
