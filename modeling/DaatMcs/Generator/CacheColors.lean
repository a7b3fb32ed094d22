/-
# The cache partitions

`generate_cache_colors_assignment` of the test engine cuts `num_bits` cache
colours into one contiguous segment per VM: it goes through the choices of
interior cut points, keeps those whose segments are long enough, and writes
each segment as a hexadecimal mask. A choice of cut points is a list of
segment lengths (`lengths`, with the inverse `cutPoints`), so the result
enumerates the splits of `num_bits`, each once
(`generateCacheColorsAssignment_exact`).
-/
import DaatMcs.Lib.Combinations
import DaatMcs.Lib.Hex
import DaatMcs.Lib.Runs

namespace DaatMcs
namespace TestEngine

/-- The end points of the segments that the cut points `bits` leave. -/
def segments (numBits : ℕ) (bits : List ℕ) : List (ℕ × ℕ) :=
  let points := [0] ++ bits ++ [numBits]
  points.zip points.tail

/-- The mask of one segment, as text. -/
def segmentMask (segment : ℕ × ℕ) : List Char :=
  let length := segment.2 - segment.1
  let mask := (1 <<< length) - 1
  hex (mask <<< segment.1)

/-- The cache partitions, one mask per VM each. Without a VM there is no
result: `combinations` raises on the negative number of cut points. -/
def generateCacheColorsAssignment (numBits numVms minColorsPerVm : ℕ) :
    Option (List (List (List Char))) :=
  if numVms = 0 then none
  else
    let candidatePoints := List.range' 1 (numBits - 1)
    some <| ((combinations candidatePoints (numVms - 1)).filter fun bits =>
      (segments numBits bits).all fun s => s.1 + minColorsPerVm ≤ s.2).map fun bits =>
        (segments numBits bits).map segmentMask

/-- A split of `numBits` into one part per VM, each with enough colours. -/
structure Split (numBits numVms minColorsPerVm : ℕ) (parts : List ℕ) : Prop where
  length_eq : parts.length = numVms
  sum_eq : parts.sum = numBits
  min_le : ∀ p ∈ parts, minColorsPerVm ≤ p

/-! ### Cut points and lengths -/

/-- The lengths of the segments from `start` to `stop` with the given cut
points between. -/
def lengths : ℕ → List ℕ → ℕ → List ℕ
  | start, [], stop => [stop - start]
  | start, cut :: cuts, stop => (cut - start) :: lengths cut cuts stop

/-- The cut points between parts laid end to end from `start` on. -/
def cutPoints : ℕ → List ℕ → List ℕ
  | _, [] => []
  | _, [_] => []
  | start, p :: q :: parts => (start + p) :: cutPoints (start + p) (q :: parts)

@[simp]
theorem length_lengths : ∀ (start : ℕ) (cuts : List ℕ) (stop : ℕ),
    (lengths start cuts stop).length = cuts.length + 1
  | _, [], _ => rfl
  | _, cut :: cuts, stop => by
    rw [lengths, List.length_cons, length_lengths, List.length_cons]

theorem length_cutPoints : ∀ (start : ℕ) (parts : List ℕ),
    (cutPoints start parts).length = parts.length - 1
  | _, [] => rfl
  | _, [_] => rfl
  | start, p :: q :: parts => by
    rw [cutPoints, List.length_cons, length_cutPoints]
    rfl

/-- Cut points in order inside a segment. -/
def Inside (start : ℕ) (cuts : List ℕ) (stop : ℕ) : Prop :=
  (start :: cuts).Pairwise (· < ·) ∧ ∀ x ∈ start :: cuts, x ≤ stop

theorem Inside.tail {start cut : ℕ} {cuts : List ℕ} {stop : ℕ}
    (h : Inside start (cut :: cuts) stop) : start < cut ∧ Inside cut cuts stop :=
  ⟨List.rel_of_pairwise_cons h.1 List.mem_cons_self, h.1.tail,
    fun x hx => h.2 x (List.mem_cons_of_mem _ hx)⟩

theorem sum_lengths : ∀ (start : ℕ) (cuts : List ℕ) (stop : ℕ), Inside start cuts stop →
    start + (lengths start cuts stop).sum = stop
  | start, [], stop, h => by
    have := h.2 start List.mem_cons_self
    simp [lengths]
    omega
  | start, cut :: cuts, stop, h => by
    have ih := sum_lengths cut cuts stop h.tail.2
    have := h.tail.1
    rw [lengths, List.sum_cons]
    omega

/-- The cut points are read back from the lengths. -/
theorem cutPoints_lengths : ∀ (start : ℕ) (cuts : List ℕ) (stop : ℕ), Inside start cuts stop →
    cutPoints start (lengths start cuts stop) = cuts
  | _, [], _, _ => rfl
  | start, cut :: cuts, stop, h => by
    have ih := cutPoints_lengths cut cuts stop h.tail.2
    have hcut : start + (cut - start) = cut := by have := h.tail.1; omega
    cases hl : lengths cut cuts stop with
    | nil => simpa [hl] using length_lengths cut cuts stop
    | cons l ls => rw [lengths, hl, cutPoints, hcut, ← hl, ih]

theorem lengths_cutPoints : ∀ (start : ℕ) (parts : List ℕ), parts ≠ [] →
    lengths start (cutPoints start parts) (start + parts.sum) = parts
  | _, [], h => absurd rfl h
  | _, [p], _ => by simp [cutPoints, lengths]
  | start, p :: q :: parts, _ => by
    have ih := lengths_cutPoints (start + p) (q :: parts) (List.cons_ne_nil _ _)
    rw [cutPoints, lengths, List.sum_cons, ← Nat.add_assoc, ih, Nat.add_sub_cancel_left]

/-- Parts with a colour each have their cut points in order. -/
theorem cutPoints_lt : ∀ (start : ℕ) (parts : List ℕ), parts ≠ [] → (∀ p ∈ parts, 0 < p) →
    (start :: cutPoints start parts).Pairwise (· < ·) ∧
      ∀ x ∈ start :: cutPoints start parts, x < start + parts.sum
  | _, [], hne, _ => absurd rfl hne
  | start, [p], _, h => by
    have hp := h p List.mem_cons_self
    simp only [cutPoints, List.pairwise_singleton, List.mem_singleton, List.sum_singleton, true_and]
    omega
  | start, p :: q :: parts, _, h => by
    have hp := h p List.mem_cons_self
    obtain ⟨hord, hlt⟩ := cutPoints_lt (start + p) (q :: parts) (List.cons_ne_nil _ _)
      fun x hx => h x (List.mem_cons_of_mem _ hx)
    rw [cutPoints, List.sum_cons, ← Nat.add_assoc]
    have hstart := hlt (start + p) List.mem_cons_self
    refine ⟨.cons (fun x hx => ?_) hord, fun x hx => ?_⟩
    · rcases List.mem_cons.mp hx with rfl | hx
      · omega
      · have := List.rel_of_pairwise_cons hord hx
        omega
    · rcases List.mem_cons.mp hx with rfl | hx
      · omega
      · exact hlt x hx

theorem inside_of_mem {numBits numVms : ℕ} {bits : List ℕ}
    (h : bits ∈ combinations (List.range' 1 (numBits - 1)) (numVms - 1)) :
    Inside 0 bits numBits := by
  obtain ⟨hord, hmem, -⟩ := mem_combinations_range'.mp h
  refine ⟨.cons (fun x hx => (hmem x hx).1) hord, fun x hx => ?_⟩
  rcases List.mem_cons.mp hx with rfl | hx
  · exact Nat.zero_le _
  · have := hmem x hx
    omega

theorem cutPoints_mem {numBits numVms minColorsPerVm : ℕ} (hv : 0 < numVms)
    (hm : 0 < minColorsPerVm) {parts : List ℕ} (h : Split numBits numVms minColorsPerVm parts) :
    cutPoints 0 parts ∈ combinations (List.range' 1 (numBits - 1)) (numVms - 1) := by
  have hne : parts ≠ [] := by
    rintro rfl
    exact absurd h.length_eq (by simpa using hv.ne)
  obtain ⟨hord, hlt⟩ := cutPoints_lt 0 parts hne fun p hp => hm.trans_le (h.min_le p hp)
  refine mem_combinations_range'.mpr ⟨hord.tail, fun x hx => ⟨?_, ?_⟩, ?_⟩
  · exact List.rel_of_pairwise_cons hord hx
  · have := hlt x (List.mem_cons_of_mem _ hx)
    rw [h.sum_eq] at this
    omega
  · rw [length_cutPoints, h.length_eq]

/-! ### The masks -/

theorem segmentMask_eq (start stop : ℕ) :
    segmentMask (start, stop) = hex (run start (stop - start)) := rfl

/-- The segments of cut points are runs end to end. -/
theorem map_segmentMask : ∀ (start : ℕ) (cuts : List ℕ) (stop : ℕ), Inside start cuts stop →
    ((start :: (cuts ++ [stop])).zip (cuts ++ [stop])).map segmentMask =
      (runs start (lengths start cuts stop)).map hex
  | _, [], _, _ => rfl
  | start, cut :: cuts, stop, h => by
    have ih := map_segmentMask cut cuts stop h.tail.2
    have hcut : start + (cut - start) = cut := by have := h.tail.1; omega
    rw [List.cons_append, List.zip_cons_cons, List.map_cons, ih, lengths, runs, hcut, List.map_cons,
      segmentMask_eq]

theorem all_segments : ∀ (start : ℕ) (cuts : List ℕ) (stop m : ℕ), Inside start cuts stop →
    (((start :: (cuts ++ [stop])).zip (cuts ++ [stop])).all fun s => s.1 + m ≤ s.2) =
      (lengths start cuts stop).all fun p => m ≤ p
  | start, [], stop, m, h => by
    have := h.2 start List.mem_cons_self
    simp [lengths]
    omega
  | start, cut :: cuts, stop, m, h => by
    have ih := all_segments cut cuts stop m h.tail.2
    have hcut : (start + m ≤ cut) = (m ≤ cut - start) := by
      have := h.tail.1
      simp only [eq_iff_iff]
      omega
    rw [List.cons_append, List.zip_cons_cons, List.all_cons, ih, lengths, List.all_cons]
    simp only [hcut]

/-- What is written determines the parts. -/
theorem map_hex_runs_injective {parts parts' : List ℕ}
    (h : (runs 0 parts).map hex = (runs 0 parts').map hex) : parts = parts' := by
  have hruns := List.map_injective_iff.mpr hex_injective h
  rw [← map_popcount_runs 0 parts, hruns, map_popcount_runs]

/-! ### The enumeration -/

/-- The splits, in the order of the enumeration. -/
def splits (numBits numVms minColorsPerVm : ℕ) : List (List ℕ) :=
  ((combinations (List.range' 1 (numBits - 1)) (numVms - 1)).map fun bits =>
    lengths 0 bits numBits).filter fun parts => parts.all fun p => minColorsPerVm ≤ p

theorem mem_splits {numBits numVms minColorsPerVm : ℕ} (hv : 0 < numVms)
    (hm : 0 < minColorsPerVm) {parts : List ℕ} :
    parts ∈ splits numBits numVms minColorsPerVm ↔
      Split numBits numVms minColorsPerVm parts := by
  simp only [splits, List.mem_filter, List.mem_map, List.all_eq_true, decide_eq_true_eq]
  constructor
  · rintro ⟨⟨bits, hbits, rfl⟩, hmin⟩
    have hsum := sum_lengths 0 bits numBits (inside_of_mem hbits)
    have hlen := (mem_combinations_range'.mp hbits).2.2
    exact ⟨by rw [length_lengths]; omega, by omega, hmin⟩
  · intro h
    have hne : parts ≠ [] := by
      rintro rfl
      exact absurd h.length_eq (by simpa using hv.ne)
    refine ⟨⟨cutPoints 0 parts, cutPoints_mem hv hm h, ?_⟩, h.min_le⟩
    have hl := lengths_cutPoints 0 parts hne
    rwa [Nat.zero_add, h.sum_eq] at hl

theorem nodup_splits (numBits numVms minColorsPerVm : ℕ) :
    (splits numBits numVms minColorsPerVm).Nodup := by
  refine List.Nodup.filter _ (List.Nodup.map_on (fun a ha b hb h => ?_) (nodup_combinations ?_ _))
  · rw [← cutPoints_lengths 0 a numBits (inside_of_mem ha), h,
      cutPoints_lengths 0 b numBits (inside_of_mem hb)]
  · exact List.nodup_range'

theorem generateCacheColorsAssignment_eq {numBits numVms minColorsPerVm : ℕ} (hv : 0 < numVms) :
    generateCacheColorsAssignment numBits numVms minColorsPerVm =
      some ((splits numBits numVms minColorsPerVm).map fun parts => (runs 0 parts).map hex) := by
  rw [generateCacheColorsAssignment, if_neg hv.ne', splits, List.filter_map, List.map_map]
  refine congrArg some ?_
  have hall : ∀ bits ∈ combinations (List.range' 1 (numBits - 1)) (numVms - 1),
      ((segments numBits bits).all fun s => s.1 + minColorsPerVm ≤ s.2) =
        (lengths 0 bits numBits).all fun p => minColorsPerVm ≤ p :=
    fun bits hbits => all_segments 0 bits numBits minColorsPerVm (inside_of_mem hbits)
  rw [List.filter_congr hall]
  refine List.map_congr_left fun bits hbits => ?_
  exact map_segmentMask 0 bits numBits (inside_of_mem (List.mem_of_mem_filter hbits))

theorem length_mul_le_sum (m : ℕ) : ∀ parts : List ℕ, (∀ p ∈ parts, m ≤ p) →
    parts.length * m ≤ parts.sum
  | [], _ => by simp
  | p :: parts, h => by
    have ih := length_mul_le_sum m parts fun x hx => h x (List.mem_cons_of_mem _ hx)
    have hp := h p List.mem_cons_self
    rw [List.length_cons, List.sum_cons, Nat.succ_mul]
    omega

/-- There is a split as soon as the smallest parts fit: all the rest goes to
one VM. -/
theorem exists_split {numBits numVms minColorsPerVm : ℕ} (hv : 0 < numVms) :
    (∃ parts, Split numBits numVms minColorsPerVm parts) ↔
      numVms * minColorsPerVm ≤ numBits := by
  constructor
  · rintro ⟨parts, h⟩
    have := length_mul_le_sum minColorsPerVm parts h.min_le
    rwa [h.length_eq, h.sum_eq] at this
  · obtain ⟨n, rfl⟩ : ∃ n, numVms = n + 1 := ⟨numVms - 1, by omega⟩
    intro h
    rw [Nat.succ_mul] at h
    refine ⟨(numBits - n * minColorsPerVm) :: List.replicate n minColorsPerVm, ?_, ?_, ?_⟩
    · rw [List.length_cons, List.length_replicate]
    · rw [List.sum_cons, List.sum_replicate_nat]
      omega
    · intro p hp
      rcases List.mem_cons.mp hp with rfl | hp
      · omega
      · rw [List.eq_of_mem_replicate hp]

theorem splits_eq_nil {numBits numVms minColorsPerVm : ℕ} (hv : 0 < numVms)
    (hm : 0 < minColorsPerVm) :
    splits numBits numVms minColorsPerVm = [] ↔ numBits < numVms * minColorsPerVm := by
  rw [List.eq_nil_iff_forall_not_mem, ← Nat.not_le, ← exists_split hv, not_exists]
  exact forall_congr' fun parts => not_congr (mem_splits hv hm)

/-- **Main result.** The cache partitions are exactly the splits of the
colours: every list has one mask per VM, contiguous runs of ones laid out
from bit 0 on, disjoint and together all `numBits` ones; every split is
there exactly once; and there is none iff the smallest parts do not fit. -/
theorem generateCacheColorsAssignment_exact (numBits numVms minColorsPerVm : ℕ)
    (hv : 0 < numVms) (hm : 0 < minColorsPerVm) :
    ∃ r, generateCacheColorsAssignment numBits numVms minColorsPerVm = some r ∧
      (∀ masks ∈ r, masks.length = numVms ∧
        ∃ parts, Split numBits numVms minColorsPerVm parts ∧
          masks.map intOfHex = (runs 0 parts).map (fun v : ℕ => some (v : ℤ)) ∧
          (runs 0 parts).Pairwise (fun v w => v &&& w = 0) ∧
          (runs 0 parts).foldl (· ||| ·) 0 = 2 ^ numBits - 1) ∧
      (∀ parts, Split numBits numVms minColorsPerVm parts →
        r.count ((runs 0 parts).map hex) = 1) ∧
      (r = [] ↔ numBits < numVms * minColorsPerVm) := by
  refine ⟨_, generateCacheColorsAssignment_eq hv, fun masks hmasks => ?_, fun parts h => ?_, ?_⟩
  · obtain ⟨parts, hparts, rfl⟩ := List.mem_map.mp hmasks
    have h := (mem_splits hv hm).mp hparts
    refine ⟨by rw [List.length_map, length_runs, h.length_eq], parts, h, ?_, runs_disjoint 0 parts, ?_⟩
    · rw [List.map_map]
      exact List.map_congr_left fun v _ => intOfHex_hex v
    · rw [union_runs, h.sum_eq]
  · refine List.count_eq_one_of_mem ?_ (List.mem_map_of_mem ((mem_splits hv hm).mpr h))
    exact (nodup_splits _ _ _).map fun a b => map_hex_runs_injective
  · rw [List.map_eq_nil_iff, splits_eq_nil hv hm]

/-- Five colours for two VMs: the cut is at 2 or at 3. -/
theorem generateCacheColorsAssignment_exact_five :
    generateCacheColorsAssignment 5 2 2 =
        some [["0x3".toList, "0x1c".toList], ["0x7".toList, "0x18".toList]] ∧
      ∃ r, generateCacheColorsAssignment 5 2 2 = some r ∧
        (∀ masks ∈ r, masks.length = 2 ∧
          ∃ parts, Split 5 2 2 parts ∧
            masks.map intOfHex = (runs 0 parts).map (fun v : ℕ => some (v : ℤ)) ∧
            (runs 0 parts).Pairwise (fun v w => v &&& w = 0) ∧
            (runs 0 parts).foldl (· ||| ·) 0 = 2 ^ 5 - 1) ∧
        (∀ parts, Split 5 2 2 parts → r.count ((runs 0 parts).map hex) = 1) ∧
        (r = [] ↔ 5 < 2 * 2) :=
  ⟨by decide +kernel, generateCacheColorsAssignment_exact 5 2 2 (by decide) (by decide)⟩

end TestEngine
end DaatMcs
