/-
# Entries with the label of their list

Lists under labels, of which several may be the same: `labelled` has their
entries, each with the label of its list. One list repeated under all labels
has the entries of the labelled lists, which have none twice, iff it has those
of every single one (`labelled_perm_iff`): lists under one label cannot make up
for each other.
-/
import Mathlib.Algebra.Ring.Nat
import Mathlib.Data.List.Count
import Mathlib.Data.List.Nodup
import Mathlib.Data.List.Perm.Basic
import Mathlib.Tactic.Common

namespace DaatMcs

variable {α π : Type*}

def labelled (l : List (π × List α)) : List (α × π) := l.flatMap fun e => e.2.map fun a => (a, e.1)

theorem labelled_cons (e : π × List α) (l : List (π × List α)) :
    labelled (e :: l) = (e.2.map fun a => (a, e.1)) ++ labelled l := List.flatMap_cons

variable [DecidableEq α] [DecidableEq π]

theorem count_labelled (a : α) (p : π) : ∀ l : List (π × List α),
    (labelled l).count (a, p) = ((l.filter fun e => e.1 = p).map fun e => e.2.count a).sum
  | [] => rfl
  | e :: l => by
    have ih := count_labelled a p l
    rw [labelled_cons, List.count_append, ih]
    by_cases he : e.1 = p
    · rw [List.filter_cons_of_pos (by simpa using he), List.map_cons, List.sum_cons, ← he,
        List.count_map_of_injective _ _ (fun _ _ h => (Prod.mk.inj h).1)]
    · rw [List.filter_cons_of_neg (by simpa using he), List.count_eq_zero.mpr, Nat.zero_add]
      rintro hmem
      obtain ⟨b, -, hb⟩ := List.mem_map.mp hmem
      exact he (Prod.mk.inj hb).2

theorem sum_le_length : ∀ {ns : List ℕ}, (∀ n ∈ ns, n ≤ 1) → ns.sum ≤ ns.length ∧
    (ns.sum = ns.length → ∀ n ∈ ns, n = 1)
  | [], _ => ⟨Nat.le_refl 0, fun _ n hn => by cases hn⟩
  | n :: ns, h => by
    rw [List.forall_mem_cons] at h
    obtain ⟨hle, hones⟩ := sum_le_length h.2
    rw [List.sum_cons, List.length_cons]
    refine ⟨by omega, fun heq => ?_⟩
    exact List.forall_mem_cons.mpr ⟨by omega, hones (by omega)⟩

/-- Zeros and ones that sum up like so many copies of a number are copies of
that number. -/
theorem eq_of_sum_eq {k : ℕ} {ns : List ℕ} (hle : ∀ n ∈ ns, n ≤ 1) (h : ns.sum = ns.length * k) :
    ∀ n ∈ ns, n = k := by
  intro n hn
  obtain ⟨hsum, hones⟩ := sum_le_length hle
  match k with
  | 0 => exact List.sum_eq_zero_iff_forall_eq_nat.mp h n hn
  | 1 => exact hones (by omega) n hn
  | k + 2 =>
    have hpos := List.length_pos_of_mem hn
    have := Nat.mul_le_mul_left ns.length (Nat.le_add_left 2 k)
    omega

/-- **Main result.** A list repeated under all labels has their entries iff it
has those of each of their lists. -/
theorem labelled_perm_iff {l : List (π × List α)} (hnd : ∀ e ∈ l, e.2.Nodup) (names : List α) :
    (labelled (l.map fun e => (e.1, names))).Perm (labelled l) ↔ ∀ e ∈ l, e.2.Perm names := by
  constructor
  · intro h e he
    refine List.perm_iff_count.mpr fun a => ?_
    have hcount := h.count_eq (a, e.1)
    rw [count_labelled, count_labelled, List.filter_map, List.map_map] at hcount
    have hle : ∀ n ∈ (l.filter fun e' => e'.1 = e.1).map fun e' => e'.2.count a, n ≤ 1 := fun n hn => by
      obtain ⟨e', he', rfl⟩ := List.mem_map.mp hn
      exact List.nodup_iff_count_le_one.mp (hnd e' (List.mem_of_mem_filter he')) a
    refine eq_of_sum_eq hle ?_ _ (List.mem_map_of_mem (List.mem_filter.mpr ⟨he, decide_eq_true rfl⟩))
    rw [← hcount]
    simp [Function.comp_def]
  · intro h
    induction l with
    | nil => exact List.Perm.refl _
    | cons e l ih =>
      rw [List.map_cons, labelled_cons, labelled_cons]
      exact ((h e List.mem_cons_self).symm.map _).append
        (ih (fun e' he' => hnd e' (List.mem_cons_of_mem e he')) fun e' he' => h e' (List.mem_cons_of_mem e he'))

end DaatMcs
