/-
# The report of the logger server

`server.c` receives one message of `message_size` bytes, cuts its words into
one run per CPU and prints each run under the heading of its CPU. The length
of a run comes from a chain of divisions: `message_size` over the bytes one
word of every CPU takes, then "aligned" once more by `sizeof(uint32_t)`,
although it counts words by then. So a run is a multiple of 4 words, and the
report is the message only if the true length was one
(`report_complete_iff`): else every CPU loses words, and every CPU but the
first is given words of another.
-/
import DaatMcs.Lib.CInt
import Mathlib.Data.List.Basic
import Mathlib.Tactic.Common
import Mathlib.Tactic.Ring

namespace DaatMcs
namespace Server

open CInt

/-- `BUFFER_SIZE` of `server.c`, the largest message accepted. -/
def bufferSize : ℕ := 32 * 1024 * 1024

/-- `sizeof(uint32_t)`. -/
def wordSize : ℕ := 4

/-- The checkpoints the report gives each CPU: `chunk_size` after the chain
of divisions, all of it in `size_t`. -/
def checkpointsPerCpu (messageSize numCpus : ℕ) : ℕ :=
  let chunkSize := messageSize / (numCpus * wordSize % 2 ^ 64)
  let chunkSize := chunkSize / wordSize
  chunkSize * wordSize

/-- What is printed under the heading of one CPU: `data[offset + i]`. -/
def cpuCheckpoints (messageSize numCpus : ℕ) (data : List UInt32) (cpu : ℕ) : List UInt32 :=
  let offset := cpu * checkpointsPerCpu messageSize numCpus
  (List.range (checkpointsPerCpu messageSize numCpus)).map fun i => data.getD (offset + i) 0

/-- The dump loop: CPU by CPU, its number and its checkpoints. -/
def dump (messageSize numCpus : ℕ) (data : List UInt32) : List (ℕ × List UInt32) :=
  (List.range numCpus).map fun cpu => (cpu, cpuCheckpoints messageSize numCpus data cpu)

/-- The text `main` writes for a dump. -/
def printDump (sections : List (ℕ × List UInt32)) : String :=
  "======================================================\n" ++
  "Aggregated checkpoints per CPU\n" ++
  String.join (sections.map fun s =>
    "CPU" ++ toString s.1 ++ " checkpoints:\n" ++
      " ".intercalate (s.2.map fun w => toString w.toNat) ++ "\n") ++
  "\n"

/-- The report of `main` on the received words, unless it rejects its
arguments (`message_size` and `num_cpus` as `atoi` reads them). -/
def report (messageSize numCpus : ℤ) (data : List UInt32) : Option (List (ℕ × List UInt32)) :=
  if messageSize ≤ 0 ∨ messageSize > bufferSize then none
  else if sizeT numCpus = 0 then none
  else some (dump messageSize.toNat (sizeT numCpus) data)

/-- Nothing is lost: with `W` words a CPU, CPU `c` is listed `c`-th with the
words from `c * W` on, and the lists together are the message. -/
def Complete (W numCpus : ℕ) (data : List UInt32) (r : List (ℕ × List UInt32)) : Prop :=
  r.length = numCpus ∧
  (∀ c < numCpus, r[c]? = some (c, (data.drop (c * W)).take W)) ∧
  r.flatMap Prod.snd = data

/-! ### The lengths -/

theorem sizeT_of_le {n : ℕ} (h : n ≤ bufferSize) : sizeT n = n :=
  sizeT_of_nat (h.trans_lt (by decide))

theorem checkpointsPerCpu_eq {W n : ℕ} (hn : 0 < n) (hle : wordSize * n * W ≤ bufferSize)
    (hW : 0 < W) : checkpointsPerCpu (wordSize * n * W) n = W / 4 * 4 := by
  have hlt : n * wordSize < 2 ^ 64 := by
    have : n * wordSize ≤ wordSize * n * W := by
      rw [Nat.mul_comm n]; exact Nat.le_mul_of_pos_right _ hW
    exact lt_of_le_of_lt (this.trans hle) (by decide)
  have hpos : 0 < wordSize * n := Nat.mul_pos (by decide) hn
  simp only [checkpointsPerCpu, Nat.mod_eq_of_lt hlt]
  rw [Nat.mul_comm n, Nat.mul_div_cancel_left _ hpos]
  rfl

/-! ### The words -/

/-- Reading on from an offset is a slice, while the list goes that far. -/
theorem range_map_getD (data : List UInt32) (offset : ℕ) :
    ∀ k, offset + k ≤ data.length →
      (List.range k).map (fun i => data.getD (offset + i) 0) = (data.drop offset).take k
  | 0, _ => by simp
  | k + 1, h => by
    rw [List.range_succ, List.map_append, range_map_getD data offset k (by omega),
      List.map_singleton, List.take_add_one]
    have hlt : offset + k < data.length := by omega
    simp [List.getElem?_drop, hlt]

/-- Slices of one length, laid end to end. -/
theorem flatMap_slices (W : ℕ) (data : List UInt32) :
    ∀ n, (List.range n).flatMap (fun c => (data.drop (c * W)).take W) = data.take (n * W)
  | 0 => by simp
  | n + 1 => by
    rw [List.range_succ, List.flatMap_append, flatMap_slices W data n, Nat.succ_mul, List.take_add]
    simp

theorem cpuCheckpoints_eq {W n : ℕ} (hn : 0 < n) (hle : wordSize * n * W ≤ bufferSize)
    (hW : 0 < W) (h4 : 4 ∣ W) {data : List UInt32} (hlen : data.length = n * W) {c : ℕ}
    (hc : c < n) : cpuCheckpoints (wordSize * n * W) n data c = (data.drop (c * W)).take W := by
  have hcp : checkpointsPerCpu (wordSize * n * W) n = W := by
    rw [checkpointsPerCpu_eq hn hle hW, Nat.div_mul_cancel h4]
  simp only [cpuCheckpoints, hcp]
  refine range_map_getD data _ W ?_
  calc c * W + W = (c + 1) * W := by ring
    _ ≤ n * W := Nat.mul_le_mul_right _ hc
    _ = data.length := hlen.symm

/-! ### When the report is complete -/

theorem dump_complete {W n : ℕ} (hn : 0 < n) (hle : wordSize * n * W ≤ bufferSize) (hW : 0 < W)
    (h4 : 4 ∣ W) {data : List UInt32} (hlen : data.length = n * W) :
    Complete W n data (dump (wordSize * n * W) n data) := by
  have hslice : ∀ c ∈ List.range n,
      cpuCheckpoints (wordSize * n * W) n data c = (data.drop (c * W)).take W :=
    fun c hc => cpuCheckpoints_eq hn hle hW h4 hlen (List.mem_range.mp hc)
  refine ⟨by simp [dump], fun c hc => ?_, ?_⟩
  · simp [dump, hc, hslice c (List.mem_range.mpr hc)]
  · rw [dump, List.flatMap_map]
    simp only
    rw [List.flatMap_congr hslice, flatMap_slices, ← hlen, List.take_length]

/-- The first CPU's heading already shows whether a run is a multiple of 4. -/
theorem dvd_of_complete {W n : ℕ} (hn : 0 < n) (hle : wordSize * n * W ≤ bufferSize) (hW : 0 < W)
    {data : List UInt32} (hlen : data.length = n * W)
    (h : Complete W n data (dump (wordSize * n * W) n data)) : 4 ∣ W := by
  have h0 := h.2.1 0 hn
  simp only [dump, List.getElem?_map, List.getElem?_range hn, Option.map_some, Option.some.injEq,
    Prod.mk.injEq, true_and, Nat.zero_mul, List.drop_zero] at h0
  have hl := congrArg List.length h0
  have hWle : W ≤ data.length := by rw [hlen]; exact Nat.le_mul_of_pos_left _ hn
  simp only [cpuCheckpoints, List.length_map, List.length_range, checkpointsPerCpu_eq hn hle hW,
    List.length_take, Nat.min_eq_left hWle] at hl
  omega

/-- **When no checkpoint is lost.** For a message of a positive multiple of
`4 * num_cpus` bytes the server writes a report, and the report is complete,
exactly if the message fits the buffer and its size is a multiple of
`16 * num_cpus`. -/
theorem report_complete_iff (n m : ℕ) (hn : 0 < n) (hm : 0 < m) (hdvd : wordSize * n ∣ m)
    (data : List UInt32) (hlen : data.length = m / wordSize) :
    (∃ r, report m n data = some r ∧ Complete (m / (wordSize * n)) n data r) ↔
      m ≤ bufferSize ∧ 16 * n ∣ m := by
  obtain ⟨W, rfl⟩ := hdvd
  have hpos : 0 < wordSize * n := Nat.mul_pos (by decide) hn
  have hW : 0 < W := Nat.pos_of_mul_pos_left hm
  have hlen' : data.length = n * W := by
    rw [hlen, Nat.mul_assoc, Nat.mul_div_cancel_left _ (by decide)]
  have h16 : 16 * n ∣ wordSize * n * W ↔ 4 ∣ W := by
    rw [show 16 * n = wordSize * n * 4 by simp only [wordSize]; ring]
    exact Nat.mul_dvd_mul_iff_left hpos
  rw [Nat.mul_div_cancel_left _ hpos, h16]
  have hn_le : wordSize * n * W ≤ bufferSize → n ≤ bufferSize := fun hle => by
    have h1 : n ≤ n * (wordSize * W) := Nat.le_mul_of_pos_right _ (Nat.mul_pos (by decide) hW)
    exact (h1.trans (le_of_eq (by ring))).trans hle
  constructor
  · rintro ⟨r, hr, hc⟩
    simp only [report] at hr
    split_ifs at hr with hrej h0
    have hle : wordSize * n * W ≤ bufferSize := by omega
    cases hr
    rw [Int.toNat_natCast, sizeT_of_le (hn_le hle)] at hc
    exact ⟨hle, dvd_of_complete hn hle hW hlen' hc⟩
  · rintro ⟨hle, h4⟩
    refine ⟨_, ?_, dump_complete hn hle hW h4 hlen'⟩
    simp only [report, sizeT_of_le (hn_le hle), Int.toNat_natCast]
    rw [if_neg (by omega), if_neg (by omega)]

/-- 16 bytes for one CPU: the four words are all there. -/
theorem report_complete_iff_sixteen :
    (∃ r, report (16 : ℕ) (1 : ℕ) [7, 8, 9, 10] = some r ∧
      Complete (16 / (wordSize * 1)) 1 [7, 8, 9, 10] r) ↔ 16 ≤ bufferSize ∧ 16 * 1 ∣ 16 :=
  report_complete_iff 1 16 (by decide) (by decide) (by decide) [7, 8, 9, 10] (by decide)

/-- 24 bytes for two CPUs, three words each: the server lists none. -/
theorem report_incomplete : report 24 2 [1, 2, 3, 4, 5, 6] = some [(0, []), (1, [])] ∧
    ¬ Complete (24 / (wordSize * 2)) 2 [1, 2, 3, 4, 5, 6] [(0, []), (1, [])] := by
  refine ⟨by decide, fun h => ?_⟩
  exact absurd h.2.2 (by decide)

end Server
end DaatMcs
