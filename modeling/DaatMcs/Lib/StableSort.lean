/-
# Sorting by a comparison

A sort that is handed a comparison `<` promises an order only where `<` is a
strict weak order on the elements; elsewhere its result is some permutation of
them. `sorts_respect_iff`: every such sort respects a part of `<` iff `<` is a
weak order on the list, or nothing in the list is related.
-/
import Mathlib.Data.List.Sort
import Mathlib.Tactic.Common

namespace DaatMcs

variable {α : Type*}

/-- A strict weak order on the elements of a list. -/
structure WeakOrderOn (lt : α → α → Bool) (l : List α) : Prop where
  asymm : ∀ a ∈ l, ∀ b ∈ l, lt a b → ¬ lt b a
  cotrans : ∀ a ∈ l, ∀ b ∈ l, ∀ c ∈ l, lt a c → lt a b ∨ lt b c

/-- What a stable sort by a comparison promises. -/
structure IsStableSort (sort : (α → α → Bool) → List α → List α) : Prop where
  perm : ∀ lt l, (sort lt l).Perm l
  sorted : ∀ lt l, WeakOrderOn lt l → (sort lt l).Pairwise fun a b => ¬ lt b a
  stable : ∀ lt l, WeakOrderOn lt l → ∀ a b, ¬ lt b a → [a, b].Sublist l → [a, b].Sublist (sort lt l)

/-! ### Insertion sort -/

def insertionSortBy (lt : α → α → Bool) (l : List α) : List α := l.insertionSort fun a b => ¬ lt b a

theorem pairwise_insertionSortBy {lt : α → α → Bool} {l : List α} (h : WeakOrderOn lt l) :
    (insertionSortBy lt l).Pairwise fun a b => ¬ lt b a := by
  -- on the elements of the list alone the order is total and transitive
  let r : {a // a ∈ l} → {a // a ∈ l} → Prop := fun a b => ¬ lt b.1 a.1
  have htotal : Std.Total r := ⟨fun a b => or_iff_not_imp_left.mpr fun hab =>
    h.asymm b.1 b.2 a.1 a.2 (not_not.mp hab)⟩
  have htrans : IsTrans _ r := ⟨fun a b c hab hbc hac =>
    (h.cotrans c.1 c.2 b.1 b.2 a.1 a.2 hac).elim hbc hab⟩
  have hmap : insertionSortBy lt l = (l.attach.insertionSort r).map Subtype.val := by
    rw [List.map_insertionSort r (fun a b => ¬ lt b a) _ _ fun _ _ _ _ => Iff.rfl,
      List.attach_map_subtype_val, insertionSortBy]
  rw [hmap, List.pairwise_map]
  exact List.pairwise_insertionSort r l.attach

theorem isStableSort_insertionSortBy : IsStableSort (α := α) insertionSortBy where
  perm _ _ := List.perm_insertionSort _ _
  sorted _ _ h := pairwise_insertionSortBy h
  stable _ _ _ _ _ hab hsub := List.pair_sublist_insertionSort hab hsub

/-! ### What every sort respects -/

open Classical in
/-- Sorts where there is an order to sort by, and rearranges elsewhere. -/
noncomputable def sortOr (rearrange : List α → List α) (lt : α → α → Bool) (l : List α) : List α :=
  if WeakOrderOn lt l then insertionSortBy lt l else rearrange l

theorem isStableSort_sortOr {rearrange : List α → List α} (h : ∀ l, (rearrange l).Perm l) :
    IsStableSort (sortOr rearrange) where
  perm lt l := by
    unfold sortOr
    split
    · exact isStableSort_insertionSortBy.perm lt l
    · exact h l
  sorted lt l hw := by
    rw [sortOr, if_pos hw]
    exact pairwise_insertionSortBy hw
  stable lt l hw a b hab hsub := by
    rw [sortOr, if_pos hw]
    exact isStableSort_insertionSortBy.stable lt l hw a b hab hsub

theorem pair_sublist_of_ne {l : List α} {a b : α} (ha : a ∈ l) (hb : b ∈ l) (hne : a ≠ b) :
    [a, b].Sublist l ∨ [b, a].Sublist l := by
  obtain ⟨s, t, rfl⟩ := List.append_of_mem ha
  rcases List.mem_append.mp hb with hs | ht
  · exact .inr ((List.singleton_sublist.mpr hs).append (List.singleton_sublist.mpr List.mem_cons_self))
  · have ht : b ∈ t := (List.mem_cons.mp ht).resolve_left hne.symm
    exact .inl (((List.singleton_sublist.mpr ht).cons_cons a).trans (List.sublist_append_right s _))

/-- **Main result.** A part of the comparison is respected by every sort iff
the comparison is a weak order on the list, or relates none of it. -/
theorem sorts_respect_iff {lt : α → α → Bool} {l : List α} {R : α → α → Prop}
    (hlt : ∀ a b, R a b → lt a b) (hirrefl : ∀ a, ¬ R a a) :
    (∀ sort, IsStableSort sort → (sort lt l).Pairwise fun a b => ¬ R b a) ↔
      WeakOrderOn lt l ∨ ∀ a ∈ l, ∀ b ∈ l, ¬ R a b := by
  constructor
  · intro h
    refine or_iff_not_imp_left.mpr fun hweak a ha b hb hR => ?_
    have hsorted : ∀ rearrange : List α → List α, (∀ l, (rearrange l).Perm l) →
        (rearrange l).Pairwise fun a b => ¬ R b a := by
      intro rearrange hperm
      have hall := h (sortOr rearrange) (isStableSort_sortOr hperm)
      rwa [sortOr, if_neg hweak] at hall
    have hne : a ≠ b := fun heq => hirrefl a (heq ▸ hR)
    rcases pair_sublist_of_ne ha hb hne with hsub | hsub
    · have hrev := (hsorted List.reverse List.reverse_perm).sublist hsub.reverse
      exact List.rel_of_pairwise_cons hrev (List.mem_singleton_self a) hR
    · have hid := (hsorted id List.Perm.refl).sublist hsub
      exact List.rel_of_pairwise_cons hid (List.mem_singleton_self a) hR
  · rintro (hweak | hnone) sort hsort
    · exact (hsort.sorted lt l hweak).imp fun hab hR => hab (hlt _ _ hR)
    · refine List.pairwise_of_forall_mem_list fun a ha b hb => ?_
      exact hnone b ((hsort.perm lt l).mem_iff.mp hb) a ((hsort.perm lt l).mem_iff.mp ha)

end DaatMcs
