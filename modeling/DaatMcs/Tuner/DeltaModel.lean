/-
# What deltas and classes depend on

The best metric among the configurations is the same for every order of the
entries, so although a tie may change which of them is the baseline, no delta
and no class changes with the order, with the unit of the metrics, or with a
further configuration that is not better than the baseline. `deltaModel`
collects these laws.
-/
import DaatMcs.Tuner.Metrics
import Mathlib.Algebra.Order.Field.Basic
import Mathlib.Tactic.FieldSimp
import Mathlib.Tactic.NormNum
import Mathlib.Tactic.Ring

namespace DaatMcs
namespace Tuner

/-- Metrics of checkpoints of the CPU. -/
def AreMetrics (cpu : Cpu) (values : Dict Text ℚ) : Prop :=
  ∀ e ∈ values.items, ∃ checkpoints, rationals.metricFromCheckpoints cpu checkpoints = some e.2

/-- `v` is no worse than `w`: no longer on CPU0, no less on the others. -/
def NoWorse : Cpu → ℚ → ℚ → Prop
  | .cpu0, v, w => v ≤ w
  | _, v, w => w ≤ v

/-- All metrics multiplied by `c`. -/
def scaled (c : ℚ) (values : Dict Text ℚ) : Dict Text ℚ := values.filterMapValues fun v => some (c * v)

/-- The same delta and the same class for a configuration. -/
def SameFor (m m' : DeltaClass) (cfg : Text) : Prop :=
  m'.delta.get? cfg = m.delta.get? cfg ∧ m'.klass.get? cfg = m.klass.get? cfg

/-- The laws of the deltas and classes `m` of some metrics. -/
structure DeltaLaws (cpu : Cpu) (values : Dict Text ℚ) (tau tolFactor : ℚ) (m : DeltaClass) : Prop where
  keys : m.delta.keys = values.keys ∧ m.klass.keys = values.keys
  nonneg : ∀ e ∈ m.delta.items, 0 ≤ e.2
  baseline : m.delta.get? m.baselineCfg = some 0
  baselineClass : 0 ≤ tau → m.klass.get? m.baselineCfg = some 0
  /-- A configuration that is no worse has no larger delta and class. -/
  mono : ∀ e ∈ values.items, ∀ e' ∈ values.items, NoWorse cpu e.2 e'.2 →
    ∃ d d' k k', m.delta.get? e.1 = some d ∧ m.delta.get? e'.1 = some d' ∧
      m.klass.get? e.1 = some k ∧ m.klass.get? e'.1 = some k' ∧ d ≤ d' ∧ k ≤ k'
  perm : ∀ values', values'.items.Perm values.items →
    ∃ m', rationals.computeBaselineDeltaClass values' cpu tau tolFactor = some m' ∧ ∀ cfg, SameFor m m' cfg
  scale : ∀ c, 0 < c → ∃ m', rationals.computeBaselineDeltaClass (scaled c values) cpu tau tolFactor = some m' ∧
    ∀ cfg, SameFor m m' cfg
  /-- A new configuration that is not better than the baseline. -/
  add : ∀ cfg v, cfg ∉ values.keys → NoWorse cpu m.baseline v →
    ∃ m', rationals.computeBaselineDeltaClass (values.insert cfg v) cpu tau tolFactor = some m' ∧
      ∀ cfg' ∈ values.keys, SameFor m m' cfg'

/-! ### The best metric -/

/-- An entry none is better than. -/
def Best (cpu : Cpu) (values : Dict Text ℚ) (b : Text × ℚ) : Prop :=
  b ∈ values.items ∧ ∀ e ∈ values.items, NoWorse cpu b.2 e.2

theorem noWorse_antisymm {cpu : Cpu} {v w : ℚ} (h : NoWorse cpu v w) (h' : NoWorse cpu w v) : v = w := by
  cases cpu with
  | cpu0 => exact le_antisymm h h'
  | cpu1 | cpu2 => exact le_antisymm h' h

theorem noWorse_iff {cpu : Cpu} {v w : ℚ} : NoWorse cpu v w ↔ if cpu = .cpu0 then v ≤ w else w ≤ v := by
  cases cpu <;> rfl

theorem best_baselineOf {cpu : Cpu} {values : Dict Text ℚ} {b : Text × ℚ}
    (h : baselineOf cpu values = some b) : Best cpu values b :=
  ⟨(baselineOf_spec h).1, fun e he => noWorse_iff.mpr ((baselineOf_spec h).2 e he)⟩

theorem exists_baselineOf (cpu : Cpu) {values : Dict Text ℚ} (h : values.items ≠ []) :
    ∃ b, baselineOf cpu values = some b := by
  cases cpu with
  | cpu0 => exact Option.ne_none_iff_exists'.mp (mt List.argmin_eq_none.mp h)
  | cpu1 | cpu2 => exact Option.ne_none_iff_exists'.mp (mt List.argmax_eq_none.mp h)

/-- A tie leaves the best metric as it is. -/
theorem Best.unique {cpu : Cpu} {values : Dict Text ℚ} {b b' : Text × ℚ} (h : Best cpu values b)
    (h' : Best cpu values b') : b.2 = b'.2 :=
  noWorse_antisymm (h.2 b' h'.1) (h'.2 b h.1)

/-- Deltas and classes from a best metric. -/
theorem compute_of_best {cpu : Cpu} {values : Dict Text ℚ} {b : Text × ℚ} (h : Best cpu values b)
    (tau tolFactor : ℚ) : ∃ m, rationals.computeBaselineDeltaClass values cpu tau tolFactor = some m ∧
      m.baseline = b.2 ∧ (m.baselineCfg, b.2) ∈ values.items ∧
      m.delta = values.filterMapValues (fun v => some (rationals.deltaOf cpu b.2 v)) ∧
      m.klass = values.filterMapValues
        fun v => some (rationals.classOf tau tolFactor (rationals.deltaOf cpu b.2 v)) := by
  obtain ⟨x, hx⟩ := exists_baselineOf cpu (List.ne_nil_of_mem h.1)
  have hbest := best_baselineOf hx
  have hval : x.2 = b.2 := hbest.unique h
  refine ⟨_, by rw [Arithmetic.computeBaselineDeltaClass, hx, Option.map_some], hval, ?_, ?_, ?_⟩
  · rw [← hval]
    exact hbest.1
  · rw [hval]
  · rw [hval]

/-! ### Deltas -/

theorem deltaOf_self (A : Arithmetic) (cpu : Cpu) (b : ℚ) : A.deltaOf cpu b b = 0 := by
  cases cpu <;> exact A.quot_self 100 b b

theorem deltaOf_mono {cpu : Cpu} {b v w : ℚ} (hb : 0 < b) (h : NoWorse cpu v w) :
    rationals.deltaOf cpu b v ≤ rationals.deltaOf cpu b w := by
  have hle : ∀ {x y : ℚ}, x ≤ y → 100 * x / b ≤ 100 * y / b := fun {x y} hxy =>
    div_le_div_of_nonneg_right (by linarith) hb.le
  cases cpu with
  | cpu0 => exact hle (sub_le_sub_right h b)
  | cpu1 | cpu2 => exact hle (sub_le_sub_left h b)

theorem deltaOf_nonneg {cpu : Cpu} {b v : ℚ} (hb : 0 < b) (h : NoWorse cpu b v) : 0 ≤ rationals.deltaOf cpu b v := by
  rw [← deltaOf_self rationals cpu b]
  exact deltaOf_mono hb h

/-- The unit of the metrics does not matter. -/
theorem deltaOf_scale {cpu : Cpu} {c b : ℚ} (hc : 0 < c) (hb : 0 < b) (v : ℚ) :
    rationals.deltaOf cpu (c * b) (c * v) = rationals.deltaOf cpu b v := by
  have hb' := hb.ne'
  have hc' := hc.ne'
  cases cpu <;> simp only [Arithmetic.deltaOf, rationals_round] <;> field_simp

theorem noWorse_scale {cpu : Cpu} {c v w : ℚ} (hc : 0 < c) (h : NoWorse cpu v w) :
    NoWorse cpu (c * v) (c * w) := by
  cases cpu with
  | cpu0 => exact mul_le_mul_of_nonneg_left h hc.le
  | cpu1 | cpu2 => exact mul_le_mul_of_nonneg_left h hc.le

/-- A larger delta has no smaller class, whatever the tolerance. -/
theorem classOf_mono (A : Arithmetic) (tau tolFactor : ℚ) {d d' : ℚ} (h : d ≤ d') :
    A.classOf tau tolFactor d ≤ A.classOf tau tolFactor d' := by
  unfold Arithmetic.classOf
  by_cases h0 : d' ≤ tau
  · rw [if_pos (h.trans h0)]
    exact Nat.zero_le _
  · rw [if_neg h0]
    by_cases h1 : d' ≤ A.round (tolFactor * tau)
    · rw [if_pos h1, if_pos (h.trans h1)]
      split <;> decide
    · rw [if_neg h1]
      split_ifs <;> decide

theorem classOf_zero {tau : ℚ} (tolFactor : ℚ) (h : 0 ≤ tau) : rationals.classOf tau tolFactor 0 = 0 := if_pos h

/-! ### Main theorem -/

theorem metrics_pos {cpu : Cpu} {values : Dict Text ℚ} (h : AreMetrics cpu values) :
    ∀ e ∈ values.items, 0 < e.2 := fun e he => by
  obtain ⟨checkpoints, hm⟩ := h e he
  exact metric_pos hm

theorem get?_mapped {ω : Type*} {values : Dict Text ℚ} {e : Text × ℚ} (h : e ∈ values.items) (f : ℚ → ω) :
    (values.filterMapValues fun v => some (f v)).get? e.1 = some (f e.2) := by
  rw [Dict.get?_filterMapValues, Dict.get?_eq_some.mpr h, Option.bind_some]

theorem keys_mapped {ω : Type*} (values : Dict Text ℚ) (f : ℚ → ω) :
    (values.filterMapValues fun v => some (f v)).keys = values.keys := by
  rw [Dict.keys, Dict.items_filterMapValues, Dict.keys]
  simp [List.filterMap_eq_map', Function.comp_def]

/-- For other metrics, the delta and the class of a configuration stay where its
delta from their best metric does. -/
theorem exists_same {cpu : Cpu} {values values' : Dict Text ℚ} {b b' : Text × ℚ} {tau tolFactor : ℚ}
    {m : DeltaClass} (hm : rationals.computeBaselineDeltaClass values cpu tau tolFactor = some m)
    (hb : Best cpu values b) (hb' : Best cpu values' b') :
    ∃ m', rationals.computeBaselineDeltaClass values' cpu tau tolFactor = some m' ∧
      ∀ cfg, (values'.get? cfg).map (rationals.deltaOf cpu b'.2) = (values.get? cfg).map (rationals.deltaOf cpu b.2) →
        SameFor m m' cfg := by
  obtain ⟨n, hn, -, -, hdelta, hklass⟩ := compute_of_best hb tau tolFactor
  obtain ⟨m', hm', -, -, hdelta', hklass'⟩ := compute_of_best hb' tau tolFactor
  obtain rfl := Option.some.inj (hm.symm.trans hn)
  have hget : ∀ {ω : Type} (f : ℚ → ω) (x : ℚ) (d : Dict Text ℚ) (cfg : Text),
      (d.filterMapValues fun v => some (f (rationals.deltaOf cpu x v))).get? cfg =
        ((d.get? cfg).map (rationals.deltaOf cpu x)).map f := fun f x d cfg => by
    rw [Dict.get?_filterMapValues]
    cases d.get? cfg <;> rfl
  refine ⟨m', hm', fun cfg hsame => ⟨?_, ?_⟩⟩
  · rw [hdelta, hdelta']
    exact (hget id _ _ _).trans ((congrArg (Option.map id) hsame).trans (hget id _ _ _).symm)
  · rw [hklass, hklass', hget, hget, hsame]

/-! ### The best configuration of other metrics -/

section OtherMetrics

variable {cpu : Cpu} {values : Dict Text ℚ} {b : Text × ℚ}

theorem Best.perm {values' : Dict Text ℚ} (h : Best cpu values b) (hperm : values'.items.Perm values.items) :
    Best cpu values' b :=
  ⟨hperm.mem_iff.mpr h.1, fun e he => h.2 e (hperm.mem_iff.mp he)⟩

theorem Best.scaled {c : ℚ} (hc : 0 < c) (h : Best cpu values b) : Best cpu (scaled c values) (b.1, c * b.2) := by
  refine ⟨Dict.mem_filterMapValues.mpr ⟨b.2, h.1, rfl⟩, ?_⟩
  intro e he
  obtain ⟨v, hv, hw⟩ := Dict.mem_filterMapValues.mp he
  rw [← Option.some.inj hw]
  exact noWorse_scale hc (h.2 _ hv)

/-- A new configuration that is not better is not the best. -/
theorem Best.insert {cfg : Text} {v : ℚ} (h : Best cpu values b) (hnew : cfg ∉ values.keys)
    (hworse : NoWorse cpu b.2 v) : Best cpu (values.insert cfg v) b := by
  have hkeep : b.1 ≠ cfg := fun heq => hnew (heq ▸ List.mem_map_of_mem h.1)
  refine ⟨Dict.mem_insert.mpr (.inr ⟨h.1, hkeep⟩), fun e he => ?_⟩
  rcases Dict.mem_insert.mp he with rfl | ⟨he, -⟩
  · exact hworse
  · exact h.2 e he

end OtherMetrics

/-- **Main result.** The deltas and classes of any metrics obtained from
checkpoints obey the laws, for every tolerance and factor. -/
theorem deltaModel {cpu : Cpu} {values : Dict Text ℚ} (hne : values.items ≠ [])
    (hmetrics : AreMetrics cpu values) (tau tolFactor : ℚ) :
    ∃ m, rationals.computeBaselineDeltaClass values cpu tau tolFactor = some m ∧
      DeltaLaws cpu values tau tolFactor m := by
  obtain ⟨b, hb⟩ := exists_baselineOf cpu hne
  have hbest := best_baselineOf hb
  have hpos : 0 < b.2 := metrics_pos hmetrics b hbest.1
  obtain ⟨m, hm, hbase, hcfg, hdelta, hklass⟩ := compute_of_best hbest tau tolFactor
  refine ⟨m, hm, ?_⟩
  have hdeltaAt : ∀ e ∈ values.items, m.delta.get? e.1 = some (rationals.deltaOf cpu b.2 e.2) := fun e he => by
    rw [hdelta]
    exact get?_mapped he _
  have hklassAt : ∀ e ∈ values.items,
      m.klass.get? e.1 = some (rationals.classOf tau tolFactor (rationals.deltaOf cpu b.2 e.2)) := fun e he => by
    rw [hklass]
    exact get?_mapped he fun v => rationals.classOf tau tolFactor (rationals.deltaOf cpu b.2 v)
  exact {
    keys := by
      rw [hdelta, hklass]
      exact ⟨keys_mapped _ _, keys_mapped _ _⟩
    nonneg := fun ⟨cfg, d⟩ he => by
      rw [hdelta, Dict.mem_filterMapValues] at he
      obtain ⟨v, hv, hd⟩ := he
      rw [← Option.some.inj hd]
      exact deltaOf_nonneg hpos (hbest.2 _ hv)
    baseline := by rw [hdeltaAt _ hcfg, deltaOf_self]
    baselineClass := fun htau => by rw [hklassAt _ hcfg, deltaOf_self, classOf_zero tolFactor htau]
    mono := fun e he e' he' hle => by
      have hd := deltaOf_mono hpos hle
      exact ⟨_, _, _, _, hdeltaAt e he, hdeltaAt e' he', hklassAt e he, hklassAt e' he', hd,
        classOf_mono rationals tau tolFactor hd⟩
    perm := fun values' hperm => by
      obtain ⟨m', hm', hsame⟩ := exists_same hm hbest (hbest.perm hperm)
      exact ⟨m', hm', fun cfg => hsame cfg (by rw [Dict.get?_congr fun v => hperm.mem_iff])⟩
    scale := fun c hc => by
      obtain ⟨m', hm', hsame⟩ := exists_same hm hbest (hbest.scaled hc)
      refine ⟨m', hm', fun cfg => hsame cfg ?_⟩
      rw [scaled, Dict.get?_filterMapValues]
      cases values.get? cfg with
      | none => rfl
      | some v => exact congrArg some (deltaOf_scale hc hpos v)
    add := fun cfg v hnew hworse => by
      rw [hbase] at hworse
      obtain ⟨m', hm', hsame⟩ := exists_same hm hbest (hbest.insert hnew hworse)
      refine ⟨m', hm', fun cfg' hcfg' => hsame cfg' ?_⟩
      have hne : cfg' ≠ cfg := fun h => hnew (h ▸ hcfg')
      rw [Dict.get?_insert, if_neg hne] }

/-- Two configurations on CPU0, the second of them 8 % slower. -/
def slower : Dict Text ℚ := .ofList [("interf".toList, 1), ("2_2_4-8".toList, 27 / 25)]

theorem deltaModel_slower : slower.items ≠ [] ∧ AreMetrics .cpu0 slower ∧
    ∃ m, rationals.computeBaselineDeltaClass slower .cpu0 5 (3 / 2) = some m ∧
      DeltaLaws .cpu0 slower 5 (3 / 2) m := by
  have hne : slower.items ≠ [] := by decide +kernel
  have hitems : slower.items = [("interf".toList, 1), ("2_2_4-8".toList, 27 / 25)] :=
    Dict.items_ofList (by decide)
  have hmetrics : AreMetrics .cpu0 slower := by
    unfold AreMetrics
    rw [hitems, List.forall_mem_cons, List.forall_mem_singleton]
    exact ⟨⟨[1000], by norm_num [Arithmetic.metricFromCheckpoints]⟩,
      ⟨[1080], by norm_num [Arithmetic.metricFromCheckpoints]⟩⟩
  exact ⟨hne, hmetrics, deltaModel hne hmetrics 5 (3 / 2)⟩

end Tuner
end DaatMcs
