/-
# Dealing in turn

The numbers below `n` dealt in turn to `m` receivers: receiver `c` gets those
that leave `c` modulo `m` (`dealt`). Every number is dealt once
(`flatMap_dealt_perm`), and no receiver gets more than one number more than
another (`length_dealt_le_succ`).
-/
import Mathlib.Data.Int.CardIntervalMod
import Mathlib.Data.List.Perm.Basic

namespace DaatMcs
namespace RoundRobin

/-- The numbers below `n` that receiver `c` of `m` gets, in order. -/
def dealt (m n c : ℕ) : List ℕ := (List.range n).filter fun i => i % m = c

variable {m n c : ℕ}

theorem mem_dealt {i : ℕ} : i ∈ dealt m n c ↔ i < n ∧ i % m = c := by
  simp [dealt]

@[simp] theorem dealt_zero (m c : ℕ) : dealt m 0 c = [] := rfl

/-- The next number goes to the receiver whose turn it is. -/
theorem dealt_succ (m n c : ℕ) :
    dealt m (n + 1) c = if n % m = c then dealt m n c ++ [n] else dealt m n c := by
  unfold dealt
  rw [List.range_succ, List.filter_append]
  by_cases h : n % m = c
  · simp [h]
  · simp [h]

theorem nodup_dealt (m n c : ℕ) : (dealt m n c).Nodup := List.nodup_range.filter _

theorem length_dealt_le (m n c : ℕ) : (dealt m n c).length ≤ n :=
  (List.length_filter_le _ _).trans (List.length_range).le

theorem length_dealt (hc : c < m) : (dealt m n c).length = n / m + if c < n % m then 1 else 0 := by
  have hcount := Nat.count_modEq_card n (Nat.zero_lt_of_lt hc) c
  rw [Nat.mod_eq_of_lt hc] at hcount
  rw [← hcount, Nat.count, List.countP_eq_length_filter, dealt]
  refine congrArg List.length (List.filter_congr fun i _ => ?_)
  rw [decide_eq_decide]
  show i % m = c ↔ i % m = c % m
  rw [Nat.mod_eq_of_lt hc]

/-- No receiver is more than one ahead of another. -/
theorem length_dealt_le_succ {c' : ℕ} (hc : c < m) (hc' : c' < m) :
    (dealt m n c).length ≤ (dealt m n c').length + 1 := by
  rw [length_dealt hc, length_dealt hc']
  split_ifs <;> omega

/-- What the receivers get together is what was dealt, where there is a
receiver or nothing to deal. -/
theorem flatMap_dealt_perm (hm : 0 < m ∨ n = 0) :
    ((List.range m).flatMap (dealt m n)).Perm (List.range n) := by
  have hnodup : ((List.range m).flatMap (dealt m n)).Nodup := by
    rw [List.nodup_flatMap]
    refine ⟨fun c _ => nodup_dealt m n c, ?_⟩
    refine List.nodup_range.imp fun {c c'} hne i hi hi' => ?_
    exact hne ((mem_dealt.mp hi).2.symm.trans (mem_dealt.mp hi').2)
  rw [List.perm_ext_iff_of_nodup hnodup List.nodup_range]
  intro i
  rw [List.mem_flatMap, List.mem_range]
  constructor
  · rintro ⟨c, -, hi⟩
    exact (mem_dealt.mp hi).1
  · intro hi
    have hpos : 0 < m := by omega
    exact ⟨i % m, List.mem_range.mpr (Nat.mod_lt i hpos), mem_dealt.mpr ⟨hi, rfl⟩⟩

end RoundRobin
end DaatMcs
