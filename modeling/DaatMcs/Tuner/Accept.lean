/-
# Three notions of an acceptable configuration

The heatmap compares the deltas with the multiple of the tolerance, the
ranking compares the classes with 1, and the decision tree has a path. The
last two agree always. The first agrees with them for all data under the
condition `ThresholdsOrdered` on the tolerances, and under no other
(`agree_iff`): a class is acceptable also within the tolerance itself, which
is not within its multiple where the factor is below 1.
-/
import DaatMcs.Tuner.Trees
import Mathlib.Algebra.Order.Field.Basic
import Mathlib.Tactic.FieldSimp
import Mathlib.Tactic.GCongr
import Mathlib.Tactic.Ring

namespace DaatMcs
namespace Tuner

/-! ### The three criteria -/

/-- `ok[y, x]` of `plot_delta_grouped_heatmap`; the matrices are transposed there. -/
def heatmapOk (m : Matrices) (tau : Cpu → ℚ) (tolFactor : ℚ) (y x : ℕ) : Bool :=
  cpuSequence.all fun cpu => ((m.deltaByCpu cpu).at x y).any (· ≤ tolFactor * tau cpu)

/-- `ok[i, j]` of `rank_configs_for_autotune`. -/
def rankOk (m : Matrices) (i j : ℕ) : Bool :=
  cpuSequence.all fun cpu => ((m.classByCpu cpu).at i j).any (· ≤ 1)

/-- All three mark the same cells, whatever the style of the trees. -/
def Agree (u : UnicodeData) (data : Data) (sel : Selection) (tau : Cpu → ℚ) (tolFactor : ℚ) : Prop :=
  ∀ m, rationals.buildMatrices u data sel tau tolFactor = .ok m →
    ∀ (i j : ℕ) (cfg eb : Text), m.cfgList[i]? = some cfg → m.embenchList[j]? = some eb →
      (heatmapOk m tau tolFactor j i = true ↔ rankOk m i j = true) ∧
        ∀ style, ∃ G ordered,
          buildDecisionTreeForBenchmark u m.classByCpu j m.cfgList m.embenchList style =
            some (G, eb, ordered) ∧ (rankOk m i j = true ↔ accepts G cfg)

/-- The factor does not lower a tolerance; or a CPU accepts nothing; or no
delta is between a tolerance and its multiple, as it is not where the
tolerance is at most 0, or on a CPU whose deltas stay below 100. -/
def ThresholdsOrdered (tau : Cpu → ℚ) (tolFactor : ℚ) : Prop :=
  1 ≤ tolFactor ∨ (∃ cpu, tau cpu < 0 ∧ tolFactor * tau cpu < 0) ∨
    ∀ cpu, tau cpu ≤ 0 ∨ cpu ≠ .cpu0 ∧ 100 ≤ tolFactor * tau cpu

/-! ### What they say about the deltas -/

theorem heatmapOk_iff {m : Matrices} {tau : Cpu → ℚ} {tolFactor : ℚ} {y x : ℕ} :
    heatmapOk m tau tolFactor y x = true ↔
      ∀ cpu, ∃ d, (m.deltaByCpu cpu).at x y = some d ∧ d ≤ tolFactor * tau cpu := by
  simp [heatmapOk, mem_cpuSequence, Option.any_eq_true]

theorem rankOk_iff {m : Matrices} {i j : ℕ} :
    rankOk m i j = true ↔ ∀ cpu, ∃ k, (m.classByCpu cpu).at i j = some k ∧ k ≤ 1 := by
  simp [rankOk, mem_cpuSequence, Option.any_eq_true]

section Cell

variable {u : UnicodeData} {data : Data} {sel : Selection} {tau : Cpu → ℚ} {tolFactor : ℚ} {m : Matrices}
  {i j : ℕ} {cfg eb : Text}

/-- The ranking and the tree agree always. -/
theorem rankOk_iff_accepts (hm : rationals.buildMatrices u data sel tau tolFactor = .ok m)
    (hi : m.cfgList[i]? = some cfg) (style : TreesStyle) :
    rankOk m i j = true ↔
      accepts (buildGraph style (classesOf m.classByCpu j m.cfgList) m.cfgList) cfg := by
  rw [rankOk_iff, accepts_iff (List.mem_of_getElem? hi)]
  exact forall_congr' fun cpu => by rw [getClass_classesOf (nodup_cfgList hm) hi]

/-- The cell's deltas, and its classes as those of the deltas. -/
theorem exists_cell (hm : rationals.buildMatrices u data sel tau tolFactor = .ok m)
    (hi : m.cfgList[i]? = some cfg) (hj : m.embenchList[j]? = some eb) :
    ∃ cells : Cpu → Dict Text (List ℤ),
      (heatmapOk m tau tolFactor j i = true ↔
        ∀ cpu, ∃ d, rationals.cellDelta cpu (cells cpu) cfg = some d ∧ d ≤ tolFactor * tau cpu) ∧
      (rankOk m i j = true ↔
        ∀ cpu, ∃ d, rationals.cellDelta cpu (cells cpu) cfg = some d ∧
          (d ≤ tau cpu ∨ d ≤ tolFactor * tau cpu)) := by
  obtain ⟨k, -, -, -, hentry⟩ := keys_of_buildMatrices hm
  refine ⟨fun cpu => cpuData data (sel.cpu0bench, k.cpu1bench, eb) cpu, ?_, ?_⟩
  · rw [heatmapOk_iff]
    exact forall_congr' fun cpu => by rw [(hentry cpu i j cfg eb hi hj).1]
  · rw [rankOk_iff]
    refine forall_congr' fun cpu => ?_
    rw [(hentry cpu i j cfg eb hi hj).2]
    constructor
    · rintro ⟨k, hk, hle⟩
      obtain ⟨d, hd, rfl⟩ := Option.map_eq_some_iff.mp hk
      exact ⟨d, hd, classOf_le_one_iff.mp hle⟩
    · rintro ⟨d, hd, hle⟩
      exact ⟨_, by rw [hd, Option.map_some], classOf_le_one_iff.mpr hle⟩

end Cell

/-- Under the condition a delta within the tolerance is within its multiple,
where every CPU accepts some delta. -/
theorem ThresholdsOrdered.le_mul {tau : Cpu → ℚ} {tolFactor : ℚ}
    (h : ThresholdsOrdered tau tolFactor) {cells : Cpu → Dict Text (List ℤ)} {cfg : Text}
    (hall : ∀ cpu, ∃ d, rationals.cellDelta cpu (cells cpu) cfg = some d ∧
      (d ≤ tau cpu ∨ d ≤ tolFactor * tau cpu)) {cpu : Cpu} {d : ℚ}
    (hd : rationals.cellDelta cpu (cells cpu) cfg = some d) (hle : d ≤ tau cpu) :
    d ≤ tolFactor * tau cpu := by
  have hnonneg : 0 ≤ d := cellDelta_nonneg hd
  rcases h with hone | ⟨cpu', htau, hmul⟩ | hrest
  · calc d ≤ tau cpu := hle
      _ ≤ tolFactor * tau cpu := le_mul_of_one_le_left (hnonneg.trans hle) hone
  · obtain ⟨d', hd', hle'⟩ := hall cpu'
    have := cellDelta_nonneg hd'
    rcases hle' with hle' | hle' <;> linarith
  · rcases hrest cpu with hzero | ⟨hcpu, hhundred⟩
    · obtain hτ : tau cpu = 0 := by linarith
      rw [hτ, mul_zero]
      linarith
    · calc d ≤ 100 := (cellDelta_lt_hundred hd hcpu).le
        _ ≤ tolFactor * tau cpu := hhundred

theorem agree_of_thresholdsOrdered {tau : Cpu → ℚ} {tolFactor : ℚ}
    (h : ThresholdsOrdered tau tolFactor) (u : UnicodeData) (data : Data) (sel : Selection) :
    Agree u data sel tau tolFactor := by
  intro m hm i j cfg eb hi hj
  refine ⟨?_, fun style => ⟨_, _, by rw [buildDecisionTreeForBenchmark, hj, Option.map_some],
    rankOk_iff_accepts hm hi style⟩⟩
  obtain ⟨cells, hheat, hrank⟩ := exists_cell hm hi hj
  rw [hheat, hrank]
  constructor
  · exact fun hall cpu => (hall cpu).imp fun d hd => ⟨hd.1, .inr hd.2⟩
  · intro hall cpu
    obtain ⟨d, hd, hle⟩ := hall cpu
    exact ⟨d, hd, hle.elim (h.le_mul hall hd) id⟩

/-! ### A data set for given deltas

One cell, and `interf` beside its configuration as the baseline. -/

theorem metricFromCheckpoints_replicate {cpu : Cpu} (hcpu : cpu ≠ .cpu0) {n : ℕ} (hn : 0 < n) :
    rationals.metricFromCheckpoints cpu (List.replicate n 1) = some (n : ℚ) := by
  have hclean : (List.replicate n (1 : ℤ)).filter (fun ts => 0 < ts) = List.replicate n 1 := by
    simp
  have hne : List.replicate n (1 : ℤ) ≠ [] := by simpa using hn.ne'
  unfold Arithmetic.metricFromCheckpoints
  simp only [hclean, if_neg hne]
  cases cpu with
  | cpu0 => exact absurd rfl hcpu
  | cpu1 | cpu2 => simp

theorem metricFromCheckpoints_singleton {ts : ℤ} (hts : 0 < ts) :
    rationals.metricFromCheckpoints .cpu0 [ts] = some ((ts : ℚ) / 1000) := by
  simp [Arithmetic.metricFromCheckpoints, hts]

/-- Every delta in the range of its CPU is the delta of some checkpoints. -/
theorem exists_checkpoints (cpu : Cpu) {d : ℚ} (hd : 0 ≤ d) (hlt : cpu ≠ .cpu0 → d < 100) :
    ∃ base cand : List ℤ, ∃ b v : ℚ, rationals.metricFromCheckpoints cpu base = some b ∧
      rationals.metricFromCheckpoints cpu cand = some v ∧ rationals.deltaOf cpu b v = d ∧
      if cpu = .cpu0 then b ≤ v else v ≤ b := by
  have hnum : 0 ≤ d.num := Rat.num_nonneg.mpr hd
  have hden : 0 < d.den := d.den_pos
  have hdiv : (d.num : ℚ) / d.den = d := Rat.num_div_den d
  have hden' : (0 : ℚ) < d.den := by exact_mod_cast hden
  by_cases hcpu : cpu = .cpu0
  · subst hcpu
    refine ⟨[100 * d.den], [100 * d.den + d.num], _, _,
      metricFromCheckpoints_singleton (by omega), metricFromCheckpoints_singleton (by omega), ?_, ?_⟩
    · calc rationals.deltaOf .cpu0 _ _ = (d.num : ℚ) / d.den := by
            simp only [Arithmetic.deltaOf, rationals_round]
            push_cast
            field_simp
            ring
        _ = d := hdiv
    · rw [if_pos rfl]
      gcongr
      omega
  · obtain ⟨n, hn⟩ := Int.eq_ofNat_of_zero_le hnum
    have hcast : (d.num : ℚ) = n := by rw [hn]; rfl
    have hlt' : n < 100 * d.den := by
      have := hlt hcpu
      rw [← hdiv, div_lt_iff₀ hden', hcast] at this
      exact_mod_cast this
    refine ⟨List.replicate (100 * d.den) 1, List.replicate (100 * d.den - n) 1, _, _,
      metricFromCheckpoints_replicate hcpu (by omega),
      metricFromCheckpoints_replicate hcpu (by omega), ?_, ?_⟩
    · rw [Nat.cast_sub hlt'.le]
      calc rationals.deltaOf cpu _ _ = (n : ℚ) / d.den := by
            cases cpu with
            | cpu0 => exact absurd rfl hcpu
            | cpu1 | cpu2 =>
              simp only [Arithmetic.deltaOf, rationals_round]
              push_cast
              field_simp
              ring
        _ = d := by rw [← hcast, hdiv]
    · rw [if_neg hcpu]
      exact_mod_cast Nat.sub_le _ _

def benchmarks : Key := ("susanc".toList, "cache_w".toList, "crc32".toList)

def candidate : Text := "2_2_4-8".toList

/-- The runs of the two configurations on one CPU. -/
def pairOf (base cand : List ℤ) : Dict Text (List ℤ) := .ofList [(interf, base), (candidate, cand)]

theorem cellDelta_pairOf {cpu : Cpu} {base cand : List ℤ} {b v : ℚ}
    (hb : rationals.metricFromCheckpoints cpu base = some b) (hv : rationals.metricFromCheckpoints cpu cand = some v)
    (hbest : if cpu = .cpu0 then b ≤ v else v ≤ b) :
    rationals.cellDelta cpu (pairOf base cand) candidate = some (rationals.deltaOf cpu b v) := by
  have hnames : [interf, candidate].Nodup := by decide +kernel
  have hpair : (pairOf base cand).items = [(interf, base), (candidate, cand)] :=
    Dict.items_ofList hnames
  have hitems : (rationals.cpuCfgMetrics cpu (pairOf base cand)).items = [(interf, b), (candidate, v)] := by
    rw [Arithmetic.cpuCfgMetrics, Dict.items_filterMapValues, hpair]
    simp [hb, hv]
  have hbaseline : baselineOf cpu (rationals.cpuCfgMetrics cpu (pairOf base cand)) = some (interf, b) := by
    unfold baselineOf
    rw [hitems]
    cases cpu with
    | cpu0 =>
      rw [if_pos rfl] at hbest
      simp [List.argmin, List.argAux, not_lt.mpr hbest]
    | cpu1 | cpu2 =>
      rw [if_neg (by decide)] at hbest
      simp [List.argmax, List.argAux, not_lt.mpr hbest]
  exact cellDelta_eq_some.mpr ⟨_, v, hbaseline, by simp [hitems], rfl⟩

def dataOf (cells : Cpu → Dict Text (List ℤ)) : Data :=
  .ofList [(benchmarks, .ofList (cpuSequence.map fun cpu => (cpu.name, cells cpu)))]

theorem cpuData_dataOf (cells : Cpu → Dict Text (List ℤ)) (cpu : Cpu) :
    cpuData (dataOf cells) benchmarks cpu = cells cpu := by
  have hname : ((cpuSequence.map fun cpu => (cpu.name, cells cpu)).map Prod.fst).Nodup := by
    rw [List.map_map]
    exact (by decide +kernel : (cpuSequence.map Cpu.name).Nodup)
  have hkey : (dataOf cells).get? benchmarks =
      some (.ofList (cpuSequence.map fun cpu => (cpu.name, cells cpu))) := by
    rw [Dict.get?_eq_some, dataOf, Dict.items_ofList (by simp)]
    exact List.mem_singleton_self _
  have hcpu : (Dict.ofList (cpuSequence.map fun cpu => (cpu.name, cells cpu))).get? cpu.name =
      some (cells cpu) := by
    rw [Dict.get?_eq_some, Dict.items_ofList hname]
    exact List.mem_map.mpr ⟨cpu, mem_cpuSequence cpu, rfl⟩
  rw [cpuData, hkey, Option.bind_some, hcpu, Option.getD_some]

def selection : Selection := ⟨benchmarks.1, some benchmarks.2.1, none⟩

theorem keysInScope_dataOf (cells : Cpu → Dict Text (List ℤ)) :
    keysInScope (dataOf cells) selection = [benchmarks] := by
  have hhas : selection.has benchmarks = true := by
    simp [Selection.has, selection]
  have hkeys : (dataOf cells).keys = [benchmarks] := by
    rw [Dict.keys, dataOf, Dict.items_ofList (by simp)]
    rfl
  rw [keysInScope, hkeys, List.filter_cons_of_pos hhas, List.filter_nil]

/-- The cell has a row and a column. -/
theorem keys_dataOf (u : UnicodeData) {cells : Cpu → Dict Text (List ℤ)} {cpu : Cpu} {cfg : Text}
    (hcfg : cfg ∈ (cells cpu).keys) :
    ∃ k, keys u (dataOf cells) selection = .ok k ∧ k.cpu1bench = benchmarks.2.1 ∧
      benchmarks.2.2 ∈ k.embenchList ∧ cfg ∈ k.cfgList := by
  have hscope := keysInScope_dataOf cells
  refine ⟨_, keys_of_some rfl (by rw [hscope]; exact List.cons_ne_nil _ _), rfl, ?_, ?_⟩
  · rw [hscope]
    exact mem_sortedSet.mpr (List.mem_singleton_self _)
  · rw [hscope, orderCfgList, mem_sortedSet, cfgsOf, List.flatMap_singleton, List.mem_flatMap]
    exact ⟨cpu, mem_cpuSequence cpu, by rwa [cpuData_dataOf]⟩

/-- For all deltas in the range of their CPUs there is a data set whose
matrices have them in one cell. -/
theorem exists_matrices (u : UnicodeData) {d : Cpu → ℚ} (hd : ∀ cpu, 0 ≤ d cpu)
    (hlt : ∀ cpu, cpu ≠ .cpu0 → d cpu < 100) (tau : Cpu → ℚ) (tolFactor : ℚ) :
    ∃ data sel m i j cfg eb, rationals.buildMatrices u data sel tau tolFactor = .ok m ∧
      m.cfgList[i]? = some cfg ∧ m.embenchList[j]? = some eb ∧
      ∀ cpu, (m.deltaByCpu cpu).at i j = some (d cpu) ∧
        (m.classByCpu cpu).at i j = some (rationals.classOf (tau cpu) tolFactor (d cpu)) := by
  choose base cand b v hbase hcand hdelta hbest using
    fun cpu => exists_checkpoints cpu (hd cpu) (hlt cpu)
  let cells (cpu : Cpu) := pairOf (base cpu) (cand cpu)
  have hcfg : candidate ∈ (cells .cpu0).keys := by
    show candidate ∈ (pairOf (base .cpu0) (cand .cpu0)).keys
    rw [pairOf, Dict.mem_keys_ofList]
    simp
  obtain ⟨k, hk, hcpu1, heb, hrow⟩ := keys_dataOf u hcfg
  have hm : ∃ m, rationals.buildMatrices u (dataOf cells) selection tau tolFactor = .ok m :=
    ⟨_, by rw [Arithmetic.buildMatrices, hk]; rfl⟩
  obtain ⟨m, hm⟩ := hm
  obtain ⟨k', hk', heq, hcfgs, hentry⟩ := keys_of_buildMatrices hm
  obtain rfl := Except.ok.inj (hk'.symm.trans hk)
  rw [← hcfgs] at hrow
  rw [← heq] at heb
  obtain ⟨i, hi⟩ := List.mem_iff_getElem?.mp hrow
  obtain ⟨j, hj⟩ := List.mem_iff_getElem?.mp heb
  refine ⟨_, _, m, i, j, _, _, hm, hi, hj, fun cpu => ?_⟩
  have hcell : rationals.cellDelta cpu (cpuData (dataOf cells) (selection.cpu0bench, k'.cpu1bench,
      benchmarks.2.2) cpu) candidate = some (d cpu) := by
    rw [hcpu1]
    show rationals.cellDelta cpu (cpuData (dataOf cells) benchmarks cpu) candidate = _
    rw [cpuData_dataOf, cellDelta_pairOf (hbase cpu) (hcand cpu) (hbest cpu), hdelta]
  have hboth := hentry cpu i j _ _ hi hj
  rw [hcell] at hboth
  exact hboth

/-! ### Main theorem -/

/-- Where the condition fails, some delta is acceptable by its class and not
within the multiple of the tolerance. -/
theorem exists_delta_of_not_thresholdsOrdered {tau : Cpu → ℚ} {tolFactor : ℚ}
    (h : ¬ ThresholdsOrdered tau tolFactor) :
    ∃ d : Cpu → ℚ, (∀ cpu, 0 ≤ d cpu) ∧ (∀ cpu, cpu ≠ .cpu0 → d cpu < 100) ∧
      (∀ cpu, d cpu ≤ tau cpu ∨ d cpu ≤ tolFactor * tau cpu) ∧
      ∃ cpu, tolFactor * tau cpu < d cpu := by
  simp only [ThresholdsOrdered, not_or, not_exists, not_and, not_forall, not_le, not_lt] at h
  obtain ⟨hone, hnonneg, cpu, hpos, hcpu⟩ := h
  have hmul : tolFactor * tau cpu < tau cpu := by nlinarith
  have hzero : ∀ c, 0 ≤ tau c ∨ 0 ≤ tolFactor * tau c := fun c =>
    or_iff_not_imp_left.mpr fun hc => hnonneg c (not_le.mp hc)
  obtain ⟨e, he, hlt, hle, hhundred⟩ : ∃ e, 0 ≤ e ∧ tolFactor * tau cpu < e ∧ e ≤ tau cpu ∧
      (cpu ≠ .cpu0 → e < 100) := by
    by_cases hzero : cpu = .cpu0
    · exact ⟨tau cpu, hpos.le, hmul, le_rfl, fun hne => absurd hzero hne⟩
    · have hgap : max 0 (tolFactor * tau cpu) < min (tau cpu) 100 :=
        max_lt (lt_min hpos (by norm_num)) (lt_min hmul (hcpu hzero))
      obtain ⟨e, hlow, hhigh⟩ := exists_between hgap
      rw [max_lt_iff] at hlow
      rw [lt_min_iff] at hhigh
      exact ⟨e, hlow.1.le, hlow.2, hhigh.1.le, fun _ => hhigh.2⟩
  refine ⟨fun c => if c = cpu then e else 0, fun c => ?_, fun c hc => ?_, fun c => ?_, cpu, ?_⟩
  · by_cases h : c = cpu
    · simpa [h] using he
    · simp [h]
  · by_cases h : c = cpu
    · subst h
      simpa using hhundred hc
    · simp [h]
  · by_cases h : c = cpu
    · simpa [h] using .inl hle
    · simpa [h] using hzero c
  · simpa using hlt

/-- **Main result.** The three criteria agree on every data set and selection
iff the tolerances and their multiples are ordered. -/
theorem agree_iff (u : UnicodeData) (tau : Cpu → ℚ) (tolFactor : ℚ) :
    (∀ data sel, Agree u data sel tau tolFactor) ↔ ThresholdsOrdered tau tolFactor := by
  refine ⟨fun hall => ?_, fun h => agree_of_thresholdsOrdered h u⟩
  by_contra hnot
  obtain ⟨d, hd, hlt, hclass, cpu, hmul⟩ := exists_delta_of_not_thresholdsOrdered hnot
  obtain ⟨data, sel, m, i, j, cfg, eb, hm, hi, hj, hcell⟩ := exists_matrices u hd hlt tau tolFactor
  have hrank : rankOk m i j = true :=
    rankOk_iff.mpr fun c => ⟨_, (hcell c).2, classOf_le_one_iff.mpr (hclass c)⟩
  obtain ⟨e, he, hle⟩ := heatmapOk_iff.mp ((hall data sel m hm i j cfg eb hi hj).1.mpr hrank) cpu
  obtain rfl := Option.some.inj ((hcell cpu).1.symm.trans he)
  exact absurd hle (not_le.mpr hmul)

/-- On CPU0 the candidate takes 8 % longer than `interf`; on the others there
is no difference. -/
def slowerData : Data :=
  dataOf fun cpu => pairOf [1000] [if cpu = .cpu0 then 1080 else 1000]

/-- With tolerances of 10 % and a factor of a half, the candidate has class 0
on each CPU, and the heatmap marks it as not accepted. -/
theorem slowerData_disagree : ¬ Agree asciiData slowerData selection (fun _ => 10) (1 / 2) := by
  intro h
  have hcell : (rationals.buildMatrices asciiData slowerData selection (fun _ => 10) (1 / 2)).map (fun m =>
      (m.cfgList[1]?, m.embenchList[0]?, heatmapOk m (fun _ => 10) (1 / 2) 0 1, rankOk m 1 0)) =
        .ok (some candidate, some benchmarks.2.2, false, true) := by decide +kernel
  cases hm : rationals.buildMatrices asciiData slowerData selection (fun _ => 10) (1 / 2) with
  | error e =>
    rw [hm] at hcell
    cases hcell
  | ok m =>
    simp only [hm, Except.map, Except.ok.injEq, Prod.mk.injEq] at hcell
    obtain ⟨hi, hj, hheat, hrank⟩ := hcell
    have hmarked := (h m hm 1 0 _ _ hi hj).1.mpr hrank
    rw [hheat] at hmarked
    exact Bool.false_ne_true hmarked

end Tuner
end DaatMcs
