/-
# Metrics, deltas and classes of the tuner

A CPU's checkpoints in one run become a metric: the total time on CPU0, the
number of checkpoints on the others. Of the metrics of the configurations
the best is the baseline, the others get the distance to it in percent
(delta), and the delta its class by the tolerance of the CPU. The numbers are
floats: every operation rounds, by whatever rounding an `Arithmetic` has;
`rationals` is the exact one.

Key theorems: `cellDelta_nonneg` and `cellDelta_lt_hundred` (what a delta can
be), `classOf_le_one_iff` (what an acceptable class says about it).
-/
import DaatMcs.Lib.Dict
import DaatMcs.Lib.Rounding
import DaatMcs.Lib.Text
import Mathlib.Data.List.MinMax
import Mathlib.Data.List.ReduceOption
import Mathlib.Algebra.BigOperators.Group.List.Basic
import Mathlib.Algebra.Order.BigOperators.Group.List
import Mathlib.Data.Rat.Cast.Order
import Mathlib.Tactic.Linarith

namespace DaatMcs
namespace Tuner

/-- The CPUs of `CPU_SEQUENCE`. -/
inductive Cpu
  | cpu0
  | cpu1
  | cpu2
deriving DecidableEq

def Cpu.name : Cpu → Text
  | .cpu0 => "CPU0".toList
  | .cpu1 => "CPU1".toList
  | .cpu2 => "CPU2".toList

def cpuSequence : List Cpu := [.cpu0, .cpu1, .cpu2]

theorem mem_cpuSequence (cpu : Cpu) : cpu ∈ cpuSequence := by cases cpu <;> decide

/-! ### Arithmetic -/

/-- Float operations, and `np.nanmean` of numbers that are not all NaN: what
is not NaN is summed in some order and divided by how many they are. -/
structure Arithmetic extends Rounding where
  nanmean : List (Option ℚ) → ℚ
  nanmean_zero : ∀ l, (∀ d, some d ∈ l → d = 0) → nanmean l = 0
  nanmean_pos : ∀ l, (∀ d, some d ∈ l → 0 ≤ d) → (∃ d, some d ∈ l ∧ 0 < d) → 0 < nanmean l

def rationals : Arithmetic where
  toRounding := .rationals
  nanmean l := l.reduceOption.sum / l.reduceOption.length
  nanmean_zero l h := by
    rw [List.sum_eq_zero fun d hd => h d (List.reduceOption_mem_iff.mp hd), zero_div]
  nanmean_pos l h hpos := by
    obtain ⟨d, hd, hlt⟩ := hpos
    have hmem : d ∈ l.reduceOption := List.reduceOption_mem_iff.mpr hd
    have hle : d ≤ l.reduceOption.sum :=
      List.single_le_sum (fun x hx => h x (List.reduceOption_mem_iff.mp hx)) d hmem
    have hlength : 0 < l.reduceOption.length := List.length_pos_of_mem hmem
    exact div_pos (hlt.trans_le hle) (by exact_mod_cast hlength)

@[simp] theorem rationals_round (x : ℚ) : rationals.round x = x := rfl

/-! ### From checkpoints to classes -/

/-- The baseline configuration with its metric: the first one that is best. -/
def baselineOf (cpu : Cpu) (values : Dict Text ℚ) : Option (Text × ℚ) :=
  match cpu with
  | .cpu0 => values.items.argmin Prod.snd
  | _ => values.items.argmax Prod.snd

structure DeltaClass where
  baseline : ℚ
  baselineCfg : Text
  delta : Dict Text ℚ
  klass : Dict Text ℕ

namespace Arithmetic

variable (A : Arithmetic)

def metricFromCheckpoints (cpu : Cpu) (checkpoints : List ℤ) : Option ℚ :=
  let checkpointsClean := checkpoints.filter fun ts => 0 < ts
  if checkpointsClean = [] then none
  else
    match cpu with
    | .cpu0 => some (A.round (A.round checkpointsClean.sum / 1000))
    | _ => some (A.round checkpointsClean.length)

def deltaOf (cpu : Cpu) (baseline v : ℚ) : ℚ :=
  match cpu with
  | .cpu0 => A.round (A.round (100 * A.round (v - baseline)) / baseline)
  | _ => A.round (A.round (100 * A.round (baseline - v)) / baseline)

def classOf (tau tolFactor d : ℚ) : ℕ :=
  if d ≤ tau then 0 else if d ≤ A.round (tolFactor * tau) then 1 else 2

/-- There is no baseline among no values; the callers pass some. -/
def computeBaselineDeltaClass (values : Dict Text ℚ) (cpu : Cpu) (tau tolFactor : ℚ) :
    Option DeltaClass :=
  (baselineOf cpu values).map fun b =>
    { baseline := b.2
      baselineCfg := b.1
      delta := values.filterMapValues fun v => some (A.deltaOf cpu b.2 v)
      klass := values.filterMapValues fun v => some (A.classOf tau tolFactor (A.deltaOf cpu b.2 v)) }

/-- The metrics of the configurations that have one. -/
def cpuCfgMetrics (cpu : Cpu) (cpuData : Dict Text (List ℤ)) : Dict Text ℚ :=
  cpuData.filterMapValues (A.metricFromCheckpoints cpu)

/-- The delta of a configuration, if its CPU has a metric for it. -/
def cellDelta (cpu : Cpu) (cpuData : Dict Text (List ℤ)) (cfg : Text) : Option ℚ :=
  (baselineOf cpu (A.cpuCfgMetrics cpu cpuData)).bind fun b =>
    ((A.cpuCfgMetrics cpu cpuData).get? cfg).map (A.deltaOf cpu b.2)

end Arithmetic

section Entries

variable (A : Arithmetic)

/-- What is stored for each configuration by its delta. -/
theorem get?_of_delta {ω : Type*} (f : ℚ → ω) (cpu : Cpu) (cpuData : Dict Text (List ℤ))
    (cfg : Text) :
    ((baselineOf cpu (A.cpuCfgMetrics cpu cpuData)).bind fun b =>
      ((A.cpuCfgMetrics cpu cpuData).filterMapValues fun v => some (f (A.deltaOf cpu b.2 v))).get? cfg) =
        (A.cellDelta cpu cpuData cfg).map f := by
  unfold Arithmetic.cellDelta
  cases baselineOf cpu (A.cpuCfgMetrics cpu cpuData) with
  | none => rfl
  | some b =>
    rw [Option.bind_some, Option.bind_some, Dict.get?_filterMapValues]
    cases (A.cpuCfgMetrics cpu cpuData).get? cfg <;> rfl

theorem delta_get? (cpu : Cpu) (cpuData : Dict Text (List ℤ)) (tau tolFactor : ℚ) (cfg : Text) :
    ((A.computeBaselineDeltaClass (A.cpuCfgMetrics cpu cpuData) cpu tau tolFactor).bind
      fun m => m.delta.get? cfg) = A.cellDelta cpu cpuData cfg := by
  rw [Arithmetic.computeBaselineDeltaClass, Option.bind_map]
  exact (get?_of_delta A id cpu cpuData cfg).trans (Option.map_id_apply ..)

theorem klass_get? (cpu : Cpu) (cpuData : Dict Text (List ℤ)) (tau tolFactor : ℚ) (cfg : Text) :
    ((A.computeBaselineDeltaClass (A.cpuCfgMetrics cpu cpuData) cpu tau tolFactor).bind
      fun m => m.klass.get? cfg) = (A.cellDelta cpu cpuData cfg).map (A.classOf tau tolFactor) := by
  rw [Arithmetic.computeBaselineDeltaClass, Option.bind_map]
  exact get?_of_delta A (A.classOf tau tolFactor) cpu cpuData cfg

end Entries

/-- An acceptable class says that the delta is within the tolerance or within
its multiple. -/
theorem classOf_le_one_iff {A : Arithmetic} {tau tolFactor d : ℚ} :
    A.classOf tau tolFactor d ≤ 1 ↔ d ≤ tau ∨ d ≤ A.round (tolFactor * tau) := by
  unfold Arithmetic.classOf
  split_ifs with h h' <;> simp [h]
  · exact h'
  · exact not_le.mp h'

/-! ### What a delta can be -/

section Deltas

variable {A : Arithmetic} {cpu : Cpu}

theorem metric_pos {checkpoints : List ℤ} {v : ℚ} (h : A.metricFromCheckpoints cpu checkpoints = some v) :
    0 < v := by
  unfold Arithmetic.metricFromCheckpoints at h
  simp only at h
  split at h
  · exact absurd h (by simp)
  · next hne =>
    have hpos : ∀ ts ∈ checkpoints.filter (fun ts => 0 < ts), (0 : ℤ) < ts := fun ts hts => by
      simpa using (List.mem_filter.mp hts).2
    have hsum : 0 < (checkpoints.filter (fun ts => 0 < ts)).sum := List.sum_pos _ hpos hne
    have hlength : 0 < (checkpoints.filter (fun ts => 0 < ts)).length :=
      List.length_pos_iff.mpr hne
    cases cpu with
    | cpu0 =>
      obtain rfl := Option.some.inj h
      have hsum : (0 : ℚ) < (checkpoints.filter (fun ts => 0 < ts)).sum := by exact_mod_cast hsum
      exact A.pos _ (div_pos (A.pos _ hsum) (by norm_num))
    | cpu1 | cpu2 =>
      obtain rfl := Option.some.inj h
      exact A.pos _ (by exact_mod_cast hlength)

theorem cpuCfgMetrics_pos {cpuData : Dict Text (List ℤ)} {e : Text × ℚ}
    (h : e ∈ (A.cpuCfgMetrics cpu cpuData).items) : 0 < e.2 := by
  obtain ⟨checkpoints, -, hm⟩ := Dict.mem_filterMapValues.mp h
  exact metric_pos hm

/-- The baseline is one of the values, and none is better. -/
theorem baselineOf_spec {values : Dict Text ℚ} {b : Text × ℚ} (h : baselineOf cpu values = some b) :
    b ∈ values.items ∧ ∀ e ∈ values.items, if cpu = .cpu0 then b.2 ≤ e.2 else e.2 ≤ b.2 := by
  cases cpu with
  | cpu0 => exact ⟨List.argmin_mem h, fun e he => List.le_of_mem_argmin he h⟩
  | cpu1 | cpu2 => exact ⟨List.argmax_mem h, fun e he => List.le_of_mem_argmax he h⟩

theorem cellDelta_eq_some {cpuData : Dict Text (List ℤ)} {cfg : Text} {d : ℚ} :
    A.cellDelta cpu cpuData cfg = some d ↔
      ∃ b v, baselineOf cpu (A.cpuCfgMetrics cpu cpuData) = some b ∧
        (cfg, v) ∈ (A.cpuCfgMetrics cpu cpuData).items ∧ A.deltaOf cpu b.2 v = d := by
  simp only [Arithmetic.cellDelta, Option.bind_eq_some_iff, Option.map_eq_some_iff, Dict.get?_eq_some]
  constructor
  · rintro ⟨b, hb, v, hv, hd⟩
    exact ⟨b, v, hb, hv, hd⟩
  · rintro ⟨b, v, hb, hv, hd⟩
    exact ⟨b, hb, v, hv, hd⟩

theorem cellDelta_nonneg {cpuData : Dict Text (List ℤ)} {cfg : Text} {d : ℚ}
    (h : A.cellDelta cpu cpuData cfg = some d) : 0 ≤ d := by
  obtain ⟨b, v, hb, hv, rfl⟩ := cellDelta_eq_some.mp h
  obtain ⟨hmem, hbest⟩ := baselineOf_spec hb
  have hpos : 0 < b.2 := cpuCfgMetrics_pos hmem
  have hbest := hbest _ hv
  cases cpu with
  | cpu0 =>
    rw [if_pos rfl] at hbest
    exact A.quot_nonneg (by norm_num) hbest hpos.le
  | cpu1 | cpu2 =>
    rw [if_neg (by decide)] at hbest
    exact A.quot_nonneg (by norm_num) hbest hpos.le

end Deltas

/-- Where checkpoints are counted, no configuration falls short of the
baseline by all of it. -/
theorem cellDelta_lt_hundred {cpu : Cpu} {cpuData : Dict Text (List ℤ)} {cfg : Text} {d : ℚ}
    (h : rationals.cellDelta cpu cpuData cfg = some d) (hcpu : cpu ≠ .cpu0) : d < 100 := by
  obtain ⟨b, v, hb, hv, rfl⟩ := cellDelta_eq_some.mp h
  have hpos : 0 < b.2 := cpuCfgMetrics_pos (baselineOf_spec hb).1
  have hv : 0 < v := cpuCfgMetrics_pos hv
  cases cpu with
  | cpu0 => exact absurd rfl hcpu
  | cpu1 | cpu2 =>
    exact (div_lt_iff₀ hpos).mpr (by simp only [rationals_round]; linarith)

end Tuner
end DaatMcs
