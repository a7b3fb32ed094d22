/-
# Combinations in order

`combinations l r` is `itertools.combinations`: the sublists of length `r`,
in the order of their positions. Up to order they are Mathlib's
`List.sublistsLen`, which gives membership and the absence of duplicates; on
a range they are the increasing lists with entries in it
(`mem_combinations_range'`). `product` is `itertools.product`.
-/
import Mathlib.Data.List.Sort
import Mathlib.Data.List.Sublists

namespace DaatMcs

variable {α : Type*}

/-- The sublists of length `r`, those with the first entry before the others. -/
def combinations : List α → ℕ → List (List α)
  | _, 0 => [[]]
  | [], _ + 1 => []
  | x :: xs, r + 1 => (combinations xs r).map (x :: ·) ++ combinations xs (r + 1)

open List in
theorem combinations_perm : ∀ (l : List α) (r : ℕ), combinations l r ~ sublistsLen r l
  | l, 0 => by simp [combinations]
  | [], r + 1 => by simp [combinations]
  | x :: xs, r + 1 => by
    rw [combinations, sublistsLen_succ_cons]
    exact perm_append_comm.trans
      ((combinations_perm xs (r + 1)).append ((combinations_perm xs r).map _))

theorem mem_combinations {l c : List α} {r : ℕ} :
    c ∈ combinations l r ↔ c.Sublist l ∧ c.length = r := by
  rw [(combinations_perm l r).mem_iff, List.mem_sublistsLen]

theorem nodup_combinations {l : List α} (h : l.Nodup) (r : ℕ) : (combinations l r).Nodup :=
  (combinations_perm l r).nodup_iff.mpr (List.nodup_sublistsLen r h)

/-- The combinations of a range: increasing lists with entries in the range. -/
theorem mem_combinations_range' {start len r : ℕ} {c : List ℕ} :
    c ∈ combinations (List.range' start len) r ↔
      c.Pairwise (· < ·) ∧ (∀ x ∈ c, start ≤ x ∧ x < start + len) ∧ c.length = r := by
  have hrange : (List.range' start len).Pairwise (· < ·) := List.pairwise_lt_range'
  rw [mem_combinations]
  constructor
  · rintro ⟨hsub, hlen⟩
    exact ⟨hrange.sublist hsub, fun x hx => List.mem_range'_1.mp (hsub.subset hx), hlen⟩
  · rintro ⟨hlt, hmem, hlen⟩
    have hnd : c.Nodup := hlt.imp Nat.ne_of_lt
    have hsub := hnd.subperm fun x hx => List.mem_range'_1.mpr (hmem x hx)
    exact ⟨List.sublist_of_subperm_of_pairwise hsub hlt hrange, hlen⟩

/-- One entry from each list, the last one changing first. -/
def product : List (List α) → List (List α)
  | [] => [[]]
  | l :: ls => l.flatMap fun x => (product ls).map (x :: ·)

theorem mem_product : ∀ {ls : List (List α)} {c : List α},
    c ∈ product ls ↔ List.Forall₂ (· ∈ ·) c ls
  | [], c => by simp [product]
  | l :: ls, c => by
    simp only [product, List.mem_flatMap, List.mem_map, mem_product]
    constructor
    · rintro ⟨x, hx, c, hc, rfl⟩
      exact .cons hx hc
    · rintro (_ | ⟨hx, hc⟩)
      exact ⟨_, hx, _, hc, rfl⟩

theorem product_ne_nil : ∀ {ls : List (List α)}, (∀ l ∈ ls, l ≠ []) → product ls ≠ []
  | [], _ => by simp [product]
  | l :: ls, h => by
    have ih := product_ne_nil fun x hx => h x (List.mem_cons_of_mem l hx)
    obtain ⟨x, hx⟩ := List.exists_mem_of_ne_nil l (h l List.mem_cons_self)
    obtain ⟨c, hc⟩ := List.exists_mem_of_ne_nil _ ih
    exact List.ne_nil_of_mem (List.mem_flatMap.mpr ⟨x, hx, List.mem_map_of_mem hc⟩)

theorem nodup_product : ∀ {ls : List (List α)}, (∀ l ∈ ls, l.Nodup) → (product ls).Nodup
  | [], _ => List.nodup_singleton _
  | l :: ls, h => by
    have ih := nodup_product fun x hx => h x (List.mem_cons_of_mem l hx)
    rw [product, List.nodup_flatMap]
    refine ⟨fun x _ => ih.map fun c c' hc => (List.cons.inj hc).2, ?_⟩
    refine (h l List.mem_cons_self).imp fun {x y} hxy c hx hy => ?_
    obtain ⟨c₁, -, rfl⟩ := List.mem_map.mp hx
    obtain ⟨c₂, -, heq⟩ := List.mem_map.mp hy
    exact hxy (List.cons.inj heq).1.symm

end DaatMcs
