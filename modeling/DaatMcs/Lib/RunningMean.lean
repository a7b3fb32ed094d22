/-
# A mean kept by halving

Values that come one after the other, of which each is averaged with what
there is: `halving`. Of three values the last one then counts as much as the
first two together, so the result is the mean in every order of the values iff
there are at most two of them or all are the same (`halving_eq_mean_iff`).
-/
import Mathlib.Algebra.BigOperators.Group.List.Basic
import Mathlib.Algebra.CharZero.Defs
import Mathlib.Algebra.Field.Basic
import Mathlib.Data.List.Induction
import Mathlib.Tactic.FieldSimp
import Mathlib.Tactic.LinearCombination
import Mathlib.Tactic.Ring

namespace DaatMcs
namespace RunningMean

variable {K : Type*} [Field K]

/-- What is stored after one more value. -/
def halve : Option K → K → Option K
  | none, t => some t
  | some v, t => some ((v + t) / 2)

def halving (ts : List K) : Option K := ts.foldl halve none

/-- The arithmetic mean, none of no values. -/
def mean (ts : List K) : Option K := if ts = [] then none else some (ts.sum / ts.length)

theorem halving_concat (ts : List K) (t : K) : halving (ts ++ [t]) = halve (halving ts) t := by
  rw [halving, List.foldl_append]
  rfl

theorem mean_perm {ts ts' : List K} (h : ts.Perm ts') : mean ts = mean ts' := by
  have hnil : ts = [] ↔ ts' = [] := by
    rw [← List.length_eq_zero_iff, ← List.length_eq_zero_iff, h.length_eq]
  simp only [mean, hnil, h.sum_eq, h.length_eq]

/-- Values that are all the same. -/
theorem halving_const [CharZero K] {t : K} {ts : List K} (hne : ts ≠ []) (h : ∀ s ∈ ts, s = t) :
    halving ts = some t := by
  induction ts using List.reverseRecOn with
  | nil => exact absurd rfl hne
  | append_singleton ts s ih =>
    rw [List.forall_mem_append, List.forall_mem_singleton] at h
    rw [halving_concat, h.2]
    by_cases hts : ts = []
    · rw [hts]
      rfl
    · rw [ih hts h.1, halve]
      congr 1
      field_simp
      ring

theorem mean_const [CharZero K] {t : K} {ts : List K} (hne : ts ≠ []) (h : ∀ s ∈ ts, s = t) :
    mean ts = some t := by
  have hlen : (ts.length : K) ≠ 0 := by
    rw [Nat.cast_ne_zero, ne_eq, List.length_eq_zero_iff]
    exact hne
  rw [mean, if_neg hne, List.eq_replicate_of_mem h, List.sum_replicate, List.length_replicate, nsmul_eq_mul,
    mul_div_cancel_left₀ t hlen]

/-- Two values. -/
theorem halving_eq_mean {ts : List K} (h : ts.length ≤ 2) : halving ts = mean ts := by
  match ts, h with
  | [], _ => rfl
  | [t], _ => simp [halving, halve, mean]
  | [s, t], _ => simp [halving, halve, mean]

/-- With a value before them the last two values are the same if their order
does not matter. -/
theorem eq_of_halving_swap [CharZero K] {ts : List K} (hne : ts ≠ []) {s t : K}
    (h : halving (ts ++ [s, t]) = halving (ts ++ [t, s])) : s = t := by
  obtain ⟨v, hv⟩ : ∃ v, halving ts = some v := by
    obtain ⟨l, x, rfl⟩ := List.eq_nil_or_concat ts |>.resolve_left hne
    rw [List.concat_eq_append, halving_concat]
    cases halving l with
    | none => exact ⟨_, rfl⟩
    | some w => exact ⟨_, rfl⟩
  have hlast : ∀ a b : K, halving (ts ++ [a, b]) = some (((v + a) / 2 + b) / 2) := fun a b => by
    have happ : ts ++ [a, b] = ts ++ [a] ++ [b] := by simp
    rw [happ, halving_concat, halving_concat, hv]
    rfl
  rw [hlast, hlast, Option.some.injEq] at h
  field_simp at h
  linear_combination -h

/-- Two different entries can be put last. -/
theorem exists_perm_last {α : Type*} {l : List α} {x y : α} (hx : x ∈ l) (hy : y ∈ l) (hxy : x ≠ y) :
    ∃ r, l.Perm (r ++ [x, y]) := by
  obtain ⟨a, b, rfl⟩ := List.append_of_mem hx
  have hperm : (a ++ x :: b).Perm (x :: (a ++ b)) := List.perm_middle
  have hy : y ∈ a ++ b := (List.mem_cons.mp (hperm.subset hy)).resolve_left (Ne.symm hxy)
  obtain ⟨c, d, hcd⟩ := List.append_of_mem hy
  rw [hcd] at hperm
  have hlast : (x :: (c ++ y :: d)).Perm ((c ++ d) ++ [x, y]) :=
    calc (x :: (c ++ y :: d)).Perm (x :: y :: (c ++ d)) := List.perm_middle.cons x
      _ = [x, y] ++ (c ++ d) := rfl
      _ |>.Perm ((c ++ d) ++ [x, y]) := List.perm_append_comm
  exact ⟨c ++ d, hperm.trans hlast⟩

/-- **Main result.** Halving gives the mean in every order of the values iff
there are at most two of them or all are the same. -/
theorem halving_eq_mean_iff [CharZero K] {ts : List K} :
    (∀ ts', ts'.Perm ts → halving ts' = mean ts) ↔ ts.length ≤ 2 ∨ ∀ s ∈ ts, ∀ t ∈ ts, s = t := by
  constructor
  · intro h
    by_contra hno
    rw [not_or, Nat.not_le] at hno
    obtain ⟨hlen, hne⟩ := hno
    push Not at hne
    obtain ⟨s, hs, t, ht, hst⟩ := hne
    obtain ⟨r, hr⟩ := exists_perm_last hs ht hst
    have hswap : (r ++ [t, s]).Perm ts := ((List.Perm.swap s t []).append_left r).trans hr.symm
    have hr_ne : r ≠ [] := by
      rintro rfl
      rw [hr.length_eq] at hlen
      exact Nat.lt_irrefl _ hlen
    exact hst (eq_of_halving_swap hr_ne ((h _ hr.symm).trans (h _ hswap).symm))
  · intro h ts' hperm
    rw [← mean_perm hperm]
    rcases h with hlen | hall
    · exact halving_eq_mean (hperm.length_eq ▸ hlen)
    · by_cases hnil : ts' = []
      · rw [hnil]
        rfl
      · obtain ⟨t, ht⟩ := List.exists_mem_of_ne_nil ts' hnil
        have hconst : ∀ s ∈ ts', s = t := fun s hs => hall s (hperm.subset hs) t (hperm.subset ht)
        rw [halving_const hnil hconst, mean_const hnil hconst]

end RunningMean
end DaatMcs
