/-
# Fallible results for every entry

`List.mapM` of `Option`: a result for every entry of a list, none if one entry
has none. `mapM_eq_some_iff` says it entry by entry. `List.filterMap` leaves
out the entries without a result.
-/
import Mathlib.Data.List.Forall2
import Mathlib.Tactic.Common

namespace DaatMcs

variable {α β γ : Type*} {f : α → Option β}

theorem mapM_eq_some_iff : ∀ {l : List α} {bs : List β},
    l.mapM f = some bs ↔ List.Forall₂ (fun a b => f a = some b) l bs
  | [], bs => by
    rw [List.mapM_nil, List.forall₂_nil_left_iff]
    exact ⟨fun h => (Option.some.inj h).symm, fun h => by rw [h]; rfl⟩
  | a :: l, bs => by
    have ih : ∀ {bs}, l.mapM f = some bs ↔ List.Forall₂ (fun a b => f a = some b) l bs :=
      mapM_eq_some_iff
    rw [List.mapM_cons, List.forall₂_cons_left_iff]
    constructor
    · intro h
      obtain ⟨b, hb, h⟩ := Option.bind_eq_some_iff.mp h
      obtain ⟨bs', hbs', h⟩ := Option.bind_eq_some_iff.mp h
      exact ⟨b, bs', hb, ih.mp hbs', (Option.some.inj h).symm⟩
    · rintro ⟨b, bs', hb, hbs', rfl⟩
      rw [hb, ih.mpr hbs']
      rfl

theorem mapM_eq_some {g : α → β} {l : List α} (h : ∀ a ∈ l, f a = some (g a)) :
    l.mapM f = some (l.map g) :=
  mapM_eq_some_iff.mpr (List.forall₂_map_right_iff.mpr (List.forall₂_same.mpr h))

theorem exists_of_forall₂_mem {R : α → β → Prop} {l : List α} {bs : List β} (h : List.Forall₂ R l bs)
    {b : β} (hb : b ∈ bs) : ∃ a ∈ l, R a b := by
  obtain ⟨i, hi, rfl⟩ := List.getElem_of_mem hb
  obtain ⟨hlen, hget⟩ := List.forall₂_iff_get.mp h
  exact ⟨_, List.getElem_mem (hlen ▸ hi), hget i (hlen ▸ hi) hi⟩

/-- Every result is that of an entry. -/
theorem exists_of_mem_mapM {l : List α} {bs : List β} (h : l.mapM f = some bs) {b : β} (hb : b ∈ bs) :
    ∃ a ∈ l, f a = some b :=
  exists_of_forall₂_mem (mapM_eq_some_iff.mp h) hb

/-- Every entry has a result. -/
theorem exists_some_of_mapM : ∀ {l : List α} {bs : List β}, l.mapM f = some bs → ∀ {a : α}, a ∈ l →
    ∃ b, f a = some b := by
  intro l bs h
  have h₂ : List.Forall₂ (fun a b => f a = some b) l bs := mapM_eq_some_iff.mp h
  clear h
  induction h₂ with
  | nil => exact fun ha => absurd ha List.not_mem_nil
  | cons hab _ ih => exact fun ha => (List.mem_cons.mp ha).elim (fun h => ⟨_, h ▸ hab⟩) ih

/-- What the results show, read off the entries. -/
theorem map_eq_of_mapM {l : List α} {bs : List β} (h : l.mapM f = some bs) {g : α → γ} {k : β → γ}
    (hf : ∀ a b, f a = some b → k b = g a) : bs.map k = l.map g := by
  have h₂ : List.Forall₂ (fun a b => f a = some b) l bs := mapM_eq_some_iff.mp h
  induction h₂ with
  | nil => rfl
  | cons hab hrest ih =>
    rw [List.map_cons, List.map_cons, hf _ _ hab, ih (mapM_eq_some_iff.mpr hrest)]

/-- An order of the results there are comes from an order of the entries. -/
theorem exists_perm_filterMap : ∀ {bs : List β} {l : List α}, bs.Perm (l.filterMap f) →
    ∃ l' : List α, l'.Perm l ∧ l'.filterMap f = bs
  | [], l, h => ⟨l, .refl l, h.symm.eq_nil⟩
  | b :: bs, l, h => by
    obtain ⟨a, ha, hab⟩ := List.mem_filterMap.mp (h.subset List.mem_cons_self)
    obtain ⟨l₁, l₂, rfl⟩ := List.append_of_mem ha
    have hmid : (l₁ ++ a :: l₂).Perm (a :: (l₁ ++ l₂)) := List.perm_middle
    have hrest : bs.Perm ((l₁ ++ l₂).filterMap f) := by
      have hmap := h.trans (hmid.filterMap f)
      rw [List.filterMap_cons_some hab] at hmap
      exact hmap.cons_inv
    obtain ⟨l', hl', hbs⟩ := exists_perm_filterMap hrest
    exact ⟨a :: l', (hl'.cons a).trans hmid.symm, by rw [List.filterMap_cons_some hab, hbs]⟩

end DaatMcs
