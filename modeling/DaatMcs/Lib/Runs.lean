/-
# Runs of ones

Bit masks that lay consecutive runs of ones end to end: `runs start lens`
has one mask for each length, the first from bit `start` on. The masks are
disjoint, together they are one run, each shows its length by its number of
ones, and they determine the lengths. A mask of single bits, or-ed together,
has the bits it was made of (`testBit_foldl_or_bit`), and shows their number
if they are different (`popcount_of_bits`).
-/
import Mathlib.Algebra.Ring.Nat
import Mathlib.Data.List.Basic
import Mathlib.Tactic.Common

namespace DaatMcs

/-- A run of `len` ones from bit `start` on. -/
def run (start len : ℕ) : ℕ := ((1 <<< len) - 1) <<< start

def runs : ℕ → List ℕ → List ℕ
  | _, [] => []
  | start, len :: lens => run start len :: runs (start + len) lens

/-- The ones of the binary representation: `bin(n).count('1')`. -/
def popcount (n : ℕ) : ℕ := (Nat.toDigits 2 n).count '1'

/-! ### The bits of a run -/

theorem testBit_run (start len i : ℕ) :
    (run start len).testBit i = decide (start ≤ i ∧ i < start + len) := by
  rw [run, Nat.one_shiftLeft, Nat.testBit_shiftLeft, Nat.testBit_two_pow_sub_one, Bool.eq_iff_iff]
  simp only [ge_iff_le, Bool.and_eq_true, decide_eq_true_eq]
  omega

theorem run_and_run {s l s' l' : ℕ} (h : s + l ≤ s') : run s l &&& run s' l' = 0 := by
  refine Nat.eq_of_testBit_eq fun i => ?_
  rw [Nat.testBit_and, testBit_run, testBit_run, Nat.zero_testBit, ← Bool.decide_and,
    decide_eq_false_iff_not]
  omega

theorem mem_runs : ∀ {start : ℕ} {lens : List ℕ} {m : ℕ}, m ∈ runs start lens →
    ∃ s len, len ∈ lens ∧ start ≤ s ∧ s + len ≤ start + lens.sum ∧ m = run s len
  | _, [], _, h => by cases h
  | start, len :: lens, m, h => by
    rcases List.mem_cons.mp h with rfl | h
    · exact ⟨start, len, List.mem_cons_self, Nat.le_refl _, by simp, rfl⟩
    · obtain ⟨s, l, hl, hs, hsl, rfl⟩ := mem_runs h
      exact ⟨s, l, List.mem_cons_of_mem _ hl, by omega, by rw [List.sum_cons]; omega, rfl⟩

theorem runs_disjoint : ∀ (start : ℕ) (lens : List ℕ),
    (runs start lens).Pairwise fun a b => a &&& b = 0
  | _, [] => .nil
  | start, len :: lens => by
    refine .cons (fun m hm => ?_) (runs_disjoint (start + len) lens)
    obtain ⟨s, l, -, hs, -, rfl⟩ := mem_runs hm
    exact run_and_run hs

@[simp]
theorem length_runs : ∀ (start : ℕ) (lens : List ℕ), (runs start lens).length = lens.length
  | _, [] => rfl
  | start, len :: lens => by rw [runs, List.length_cons, length_runs, List.length_cons]

/-- Each run is shifted by the lengths before it. -/
theorem getElem?_runs : ∀ (start : ℕ) (lens : List ℕ) (i : ℕ),
    (runs start lens)[i]? = lens[i]?.map (run (start + (lens.take i).sum))
  | _, [], _ => rfl
  | _, _ :: _, 0 => rfl
  | start, len :: lens, i + 1 => by
    rw [runs, List.getElem?_cons_succ, getElem?_runs (start + len) lens i, List.getElem?_cons_succ,
      List.take_succ_cons, List.sum_cons, Nat.add_assoc]

theorem run_or_run (start l l' : ℕ) : run start l ||| run (start + l) l' = run start (l + l') := by
  refine Nat.eq_of_testBit_eq fun i => ?_
  rw [Nat.testBit_or, testBit_run, testBit_run, testBit_run, ← Bool.decide_or, decide_eq_decide]
  omega

/-- Laid end to end the runs are one run. -/
theorem foldl_or_runs : ∀ (start : ℕ) (lens : List ℕ) (base len : ℕ), base + len = start →
    (runs start lens).foldl (· ||| ·) (run base len) = run base (len + lens.sum)
  | _, [], _, _, _ => by simp [runs]
  | start, l :: lens, base, len, h => by
    subst h
    rw [runs, List.foldl_cons, run_or_run, foldl_or_runs _ lens base (len + l) (by omega),
      List.sum_cons, Nat.add_assoc]

theorem union_runs (lens : List ℕ) : (runs 0 lens).foldl (· ||| ·) 0 = 2 ^ lens.sum - 1 := by
  have h := foldl_or_runs 0 lens 0 0 rfl
  simpa [run, Nat.one_shiftLeft] using h

/-! ### Lengths -/

theorem popcount_two_mul (n : ℕ) : popcount (2 * n) = popcount n := by
  rcases Nat.eq_zero_or_pos n with rfl | hn
  · rfl
  · have h := Nat.toDigits_append_toDigits (b := 2) (by decide) hn (d := 0) (by decide)
    rw [popcount, ← Nat.add_zero (2 * n), ← h, List.count_append]
    rfl

theorem popcount_two_mul_add_one (n : ℕ) : popcount (2 * n + 1) = popcount n + 1 := by
  rcases Nat.eq_zero_or_pos n with rfl | hn
  · rfl
  · have h := Nat.toDigits_append_toDigits (b := 2) (by decide) hn (d := 1) (by decide)
    rw [popcount, ← h, List.count_append]
    rfl

theorem popcount_two_pow_sub_one : ∀ len, popcount (2 ^ len - 1) = len
  | 0 => rfl
  | len + 1 => by
    have h : 2 ^ (len + 1) - 1 = 2 * (2 ^ len - 1) + 1 := by
      have := Nat.two_pow_pos len
      omega
    rw [h, popcount_two_mul_add_one, popcount_two_pow_sub_one len]

theorem popcount_shiftLeft (n : ℕ) : ∀ s, popcount (n <<< s) = popcount n
  | 0 => rfl
  | s + 1 => by
    rw [Nat.shiftLeft_succ, popcount_two_mul, popcount_shiftLeft n s]

/-- A run shows its length. -/
@[simp]
theorem popcount_run (start len : ℕ) : popcount (run start len) = len := by
  rw [run, popcount_shiftLeft, Nat.one_shiftLeft, popcount_two_pow_sub_one]

theorem map_popcount_runs : ∀ (start : ℕ) (lens : List ℕ), (runs start lens).map popcount = lens
  | _, [] => rfl
  | start, len :: lens => by
    rw [runs, List.map_cons, popcount_run, map_popcount_runs]

/-! ### Masks of single bits -/

theorem testBit_or_bit (mask b i : ℕ) :
    (mask ||| (1 <<< b)).testBit i = (mask.testBit i || decide (i = b)) := by
  rw [Nat.testBit_or, Nat.one_shiftLeft, Nat.testBit_two_pow]
  simp only [eq_comm]

/-- The bits of a mask are those or-ed into it. -/
theorem testBit_foldl_or_bit (i : ℕ) : ∀ (bits : List ℕ) (mask : ℕ),
    (bits.foldl (fun mask b => mask ||| (1 <<< b)) mask).testBit i =
      (mask.testBit i || decide (i ∈ bits))
  | [], mask => by simp
  | b :: bits, mask => by
    rw [List.foldl_cons, testBit_foldl_or_bit i bits, testBit_or_bit, Bool.or_assoc]
    simp only [List.mem_cons, Bool.decide_or]

/-- The ones of a number are its bits below any bound. -/
theorem popcount_eq_countP : ∀ (k n : ℕ), n < 2 ^ k → popcount n = (List.range k).countP n.testBit
  | 0, n, h => by
    obtain rfl : n = 0 := by omega
    rfl
  | k + 1, n, h => by
    have hhalf : n / 2 < 2 ^ k := by omega
    have hsucc : n.testBit ∘ Nat.succ = (n / 2).testBit := funext fun i => by
      simp [Nat.testBit_add_one]
    rw [List.range_succ_eq_map, List.countP_cons, List.countP_map, hsucc,
      ← popcount_eq_countP k (n / 2) hhalf, Nat.testBit_zero]
    rcases Nat.mod_two_eq_zero_or_one n with h0 | h1
    · obtain ⟨m, rfl⟩ : ∃ m, n = 2 * m := ⟨n / 2, by omega⟩
      rw [popcount_two_mul, Nat.mul_div_cancel_left m (by decide)]
      simp
    · obtain ⟨m, rfl⟩ : ∃ m, n = 2 * m + 1 := ⟨n / 2, by omega⟩
      have hdiv : (2 * m + 1) / 2 = m := by omega
      rw [popcount_two_mul_add_one, hdiv, h1]
      rfl

/-- A mask with these bits, all different, shows how many they are. -/
theorem popcount_of_bits {mask : ℕ} {bits : List ℕ} (hnd : bits.Nodup)
    (h : ∀ i, mask.testBit i = true ↔ i ∈ bits) : popcount mask = bits.length := by
  have hperm : ((List.range mask).filter mask.testBit).Perm bits := by
    refine (List.perm_ext_iff_of_nodup (List.nodup_range.filter _) hnd).mpr fun i => ?_
    rw [List.mem_filter, List.mem_range, h i, and_iff_right_iff_imp]
    intro hi
    calc i < 2 ^ i := Nat.lt_two_pow_self
      _ ≤ mask := Nat.ge_two_pow_of_testBit ((h i).mpr hi)
  rw [popcount_eq_countP mask mask Nat.lt_two_pow_self, List.countP_eq_length_filter,
    hperm.length_eq]

end DaatMcs
