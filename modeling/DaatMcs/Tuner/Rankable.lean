/-
# Where the ranking keeps its order

Which data the ranking puts in order depends on which runs have checkpoints.
A row without checkpoints of CPU0 has no mean, and what stands on its two
sides is not compared. `ranked_iff`: whatever the checkpoints are, and
whatever the tolerances, the rows are in the order of the objectives iff no
row is without a mean; or at most one has one; or nothing with a mean is ever
measured beside another configuration, so that all deltas are 0, and what is
not complete is of one configuration or nothing is complete.
-/
import DaatMcs.Tuner.DeltaModel
import DaatMcs.Tuner.Ranking

namespace DaatMcs
namespace Tuner

/-! ### Which runs have checkpoints -/

/-- The same runs, with checkpoints in the same places. -/
structure SameRuns (data data' : Data) : Prop where
  keys : ∀ key, key ∈ data'.keys ↔ key ∈ data.keys
  cfgs : ∀ key cpu cfg, cfg ∈ (cpuData data' key cpu).keys ↔ cfg ∈ (cpuData data key cpu).keys
  timed : ∀ key cpu cfg, Timed data' key cpu cfg ↔ Timed data key cpu cfg

theorem SameRuns.refl (data : Data) : SameRuns data data := ⟨fun _ => .rfl, fun _ _ _ => .rfl, fun _ _ _ => .rfl⟩

section Pattern

variable (data : Data) (scope : Scope)

/-- It has a row with a mean of CPU0. -/
def HasMean (b cfg : Text) : Prop := b ∈ scope.cpu0List ∧ Measured data scope b cfg

/-- With some benchmark of CPU2 all CPUs have checkpoints. -/
def Complete (b cfg : Text) : Prop :=
  b ∈ scope.cpu0List ∧ ∃ eb ∈ scope.cpu2Set, ∀ cpu, Timed data (b, scope.cpu1bench, eb) cpu cfg

/-- Some CPU has checkpoints of it and of another configuration with the same benchmarks. -/
def Beside (b cfg : Text) : Prop :=
  ∃ eb ∈ scope.cpu2Set, ∃ cpu, Timed data (b, scope.cpu1bench, eb) cpu cfg ∧
    ∃ cfg', cfg' ≠ cfg ∧ Timed data (b, scope.cpu1bench, eb) cpu cfg'

/-- Every row has a mean; or one row at most; or all means are 0, and the rows
that cannot be accepted are of one configuration, or none can. -/
def Rankable : Prop :=
  (∀ b cfg, HasData data scope b cfg → Measured data scope b cfg) ∨
    (∀ b cfg b' cfg', HasMean data scope b cfg → HasMean data scope b' cfg' → b = b' ∧ cfg = cfg') ∨
    (∀ b cfg, HasMean data scope b cfg → ¬ Beside data scope b cfg) ∧
      ((∀ b cfg b' cfg', HasMean data scope b cfg → HasMean data scope b' cfg' →
          ¬ Complete data scope b cfg → ¬ Complete data scope b' cfg' → cfg = cfg') ∨
        ∀ b cfg, ¬ Complete data scope b cfg)

end Pattern

section Same

variable {data data' : Data} {scope : Scope} {b cfg : Text}

theorem Timed.mem_keys {key : Key} {cpu : Cpu} (h : Timed data key cpu cfg) : cfg ∈ (cpuData data key cpu).keys := by
  obtain ⟨checkpoints, hget, -⟩ := h
  exact Dict.mem_keys.mpr ⟨checkpoints, Dict.get?_eq_some.mp hget⟩

theorem HasMean.hasData (h : HasMean data scope b cfg) : HasData data scope b cfg := by
  obtain ⟨hb, eb, heb, htimed⟩ := h
  exact ⟨hb, eb, heb, .cpu0, htimed.mem_keys⟩

theorem Complete.hasMean (h : Complete data scope b cfg) : HasMean data scope b cfg := by
  obtain ⟨hb, eb, heb, htimed⟩ := h
  exact ⟨hb, eb, heb, htimed .cpu0⟩

variable (h : SameRuns data data')
include h

theorem SameRuns.inScope (hin : InScope data scope) : InScope data' scope := by
  simpa only [InScope, h.keys] using hin

theorem SameRuns.hasData : HasData data' scope b cfg ↔ HasData data scope b cfg := by
  simp only [HasData, h.cfgs]

theorem SameRuns.measured : Measured data' scope b cfg ↔ Measured data scope b cfg := by
  simp only [Measured, h.timed]

theorem SameRuns.complete : Complete data' scope b cfg ↔ Complete data scope b cfg := by
  simp only [Complete, h.timed]

theorem SameRuns.rankable : Rankable data' scope ↔ Rankable data scope := by
  simp only [Rankable, HasMean, Beside, h.hasData, h.measured, h.complete, h.timed]

end Same

/-! ### Means of zeros -/

section Means

variable {A : Arithmetic} {l : List (Option ℚ)}

theorem mean_zero (h : ∀ d, some d ∈ l → d = 0) (hsome : ∃ d ∈ l, d.isSome) : A.mean l = some 0 := by
  obtain ⟨x, hx, hsome⟩ := hsome
  obtain ⟨d, rfl⟩ := Option.isSome_iff_exists.mp hsome
  have hne : l.reduceOption ≠ [] := List.ne_nil_of_mem (List.reduceOption_mem_iff.mpr hx)
  rw [Arithmetic.mean, if_neg hne, A.nanmean_zero l h]

theorem mean_pos (h : ∀ d, some d ∈ l → 0 ≤ d) (hpos : ∃ d, some d ∈ l ∧ 0 < d) : ∃ m, A.mean l = some m ∧ 0 < m := by
  obtain ⟨d, hd, hlt⟩ := hpos
  have hne : l.reduceOption ≠ [] := List.ne_nil_of_mem (List.reduceOption_mem_iff.mpr hd)
  exact ⟨_, by rw [Arithmetic.mean, if_neg hne], A.nanmean_pos l h ⟨d, hd, hlt⟩⟩

theorem le_nanmax {d m : ℚ} (hd : some d ∈ l) (hm : nanmax l = some m) : d ≤ m :=
  (List.max?_eq_some_iff.mp hm).2 d (List.reduceOption_mem_iff.mpr hd)

theorem nanmax_zero (h : ∀ d, some d ∈ l → d = 0) (hzero : some 0 ∈ l) : nanmax l = some 0 := by
  refine List.max?_eq_some_iff.mpr ⟨List.reduceOption_mem_iff.mpr hzero, fun d hd => ?_⟩
  rw [h d (List.reduceOption_mem_iff.mp hd)]

end Means

section Zero

variable {A : Arithmetic} {data : Data} {scope : Scope} {b cfg : Text}

theorem isSome_scopeDelta_iff {cpu : Cpu} {eb : Text} :
    (scopeDelta A data scope b cfg cpu eb).isSome ↔ Timed data (b, scope.cpu1bench, eb) cpu cfg := isSome_cellDelta

/-- Where all deltas are 0 the means are. -/
theorem means_zero (hmeasured : Measured data scope b cfg)
    (h : ∀ cpu, ∀ eb ∈ scope.cpu2Set, ∀ d, scopeDelta A data scope b cfg cpu eb = some d → d = 0) :
    meanDelta A data scope b cfg .cpu0 = some 0 ∧ worstDelta A data scope b cfg = some 0 := by
  have hzero : ∀ cpu, ∀ d, some d ∈ (embenchsOf data scope b).map (scopeDelta A data scope b cfg cpu) → d = 0 := by
    intro cpu d hd
    obtain ⟨eb, heb, hdelta⟩ := List.mem_map.mp hd
    exact h cpu eb (mem_embenchsOf.mp heb).1 d hdelta
  have hmean : meanDelta A data scope b cfg .cpu0 = some 0 :=
    mean_zero (hzero .cpu0) (isSome_mean.mp (isSome_meanDelta.mpr hmeasured))
  refine ⟨hmean, nanmax_zero (fun d hd => ?_) (hmean ▸ List.mem_map_of_mem (mem_cpuSequence .cpu0))⟩
  obtain ⟨cpu, -, hcpu⟩ := List.mem_map.mp hd
  have hsome := isSome_mean.mp (Option.isSome_iff_exists.mpr ⟨d, hcpu⟩)
  exact Option.some.inj (hcpu.symm.trans (mean_zero (hzero cpu) hsome))

end Zero

/-! ### Rankable data are ranked -/

section Enough

variable {A : Arithmetic} {data : Data} {scope : Scope} {tau : Cpu → ℚ} {tolFactor : ℚ} {b cfg : Text}

theorem Accepted.timed (h : Accepted A data scope tau tolFactor b cfg) :
    ∃ eb ∈ scope.cpu2Set, ∀ cpu, Timed data (b, scope.cpu1bench, eb) cpu cfg := by
  obtain ⟨eb, heb, hall⟩ := h
  refine ⟨eb, heb, fun cpu => ?_⟩
  obtain ⟨d, hd, -⟩ := hall cpu
  exact isSome_scopeDelta_iff.mp (Option.isSome_iff_exists.mpr ⟨d, hd⟩)

/-- A configuration with no other beside it is its own baseline. -/
theorem scopeDelta_of_not_beside (h : ¬ Beside data scope b cfg) {eb : Text} (heb : eb ∈ scope.cpu2Set) {cpu : Cpu}
    {d : ℚ} (hd : scopeDelta A data scope b cfg cpu eb = some d) : d = 0 := by
  obtain ⟨best, v, hbest, hv, rfl⟩ := cellDelta_eq_some.mp hd
  have hmem := (baselineOf_spec hbest).1
  have htimed : ∀ {cfg' : Text} {w : ℚ}, (cfg', w) ∈
      (A.cpuCfgMetrics cpu (cpuData data (b, scope.cpu1bench, eb) cpu)).items →
      Timed data (b, scope.cpu1bench, eb) cpu cfg' := by
    intro cfg' w hw
    obtain ⟨checkpoints, hget, hmetric⟩ := Dict.mem_filterMapValues.mp hw
    exact ⟨checkpoints, Dict.get?_eq_some.mpr hget,
      isSome_metric.mp (Option.isSome_iff_exists.mpr ⟨w, hmetric⟩)⟩
  have hname : best.1 = cfg := by
    by_contra hne
    exact h ⟨eb, heb, cpu, htimed hv, best.1, hne, htimed hmem⟩
  have hvalue : v = best.2 := by
    rw [← Dict.get?_eq_some] at hv hmem
    rw [hname] at hmem
    exact Option.some.inj (hv.symm.trans hmem)
  rw [hvalue, deltaOf_self]

/-- Then it is accepted wherever a delta of 0 is. -/
theorem accepted_of_complete (h : ¬ Beside data scope b cfg) (hcomplete : Complete data scope b cfg)
    (hzero : ∀ cpu, A.classOf (tau cpu) tolFactor 0 ≤ 1) : Accepted A data scope tau tolFactor b cfg := by
  obtain ⟨-, eb, heb, htimed⟩ := hcomplete
  refine ⟨eb, heb, fun cpu => ?_⟩
  obtain ⟨d, hd⟩ := Option.isSome_iff_exists.mp (isSome_scopeDelta_iff (A := A).mpr (htimed cpu))
  obtain rfl := scopeDelta_of_not_beside h heb hd
  exact ⟨0, hd, hzero cpu⟩

theorem meansTie_of_rankable (h : Rankable data scope) : MeansTie A data scope tau tolFactor := by
  rcases h with hall | hone | ⟨halone, hrest⟩
  · exact .inl hall
  · have hsame : ∀ b cfg b' cfg', Idle A data scope tau tolFactor b cfg →
        Idle A data scope tau tolFactor b' cfg' → b = b' ∧ cfg = cfg' := fun b cfg b' cfg' hi hi' =>
      hone b cfg b' cfg' ⟨hi.1.1, hi.2.1⟩ ⟨hi'.1.1, hi'.2.1⟩
    refine .inr ⟨fun b cfg b' cfg' hi hi' => ?_, .inl fun b cfg b' cfg' hi hi' => (hsame b cfg b' cfg' hi hi').2⟩
    obtain ⟨rfl, rfl⟩ := hsame b cfg b' cfg' hi hi'
    exact ⟨rfl, rfl⟩
  · have hmeans : ∀ b cfg, Idle A data scope tau tolFactor b cfg →
        meanDelta A data scope b cfg .cpu0 = some 0 ∧ worstDelta A data scope b cfg = some 0 := fun b cfg hi =>
      means_zero hi.2.1 fun _ _ heb _ hd => scopeDelta_of_not_beside (halone b cfg ⟨hi.1.1, hi.2.1⟩) heb hd
    refine .inr ⟨fun b cfg b' cfg' hi hi' => ?_, ?_⟩
    · rw [(hmeans b cfg hi).1, (hmeans b cfg hi).2, (hmeans b' cfg' hi').1, (hmeans b' cfg' hi').2]
      exact ⟨rfl, rfl⟩
    by_cases hzero : ∀ cpu, A.classOf (tau cpu) tolFactor 0 ≤ 1
    · rcases hrest with hcfg | hnone
      · refine .inl fun b cfg b' cfg' hi hi' => ?_
        have hincomplete : ∀ {b cfg : Text}, Idle A data scope tau tolFactor b cfg → ¬ Complete data scope b cfg :=
          fun {b cfg} hi hcomplete =>
            hi.2.2 (accepted_of_complete (halone b cfg hcomplete.hasMean) hcomplete hzero)
        exact hcfg b cfg b' cfg' ⟨hi.1.1, hi.2.1⟩ ⟨hi'.1.1, hi'.2.1⟩ (hincomplete hi) (hincomplete hi')
      · exact .inr fun b cfg hdata haccepted => hnone b cfg ⟨hdata.1, haccepted.timed⟩
    · -- nothing is accepted where a delta of 0 is not
      refine .inr fun b cfg hdata haccepted => hzero fun cpu => ?_
      have halone := halone b cfg ⟨hdata.1, haccepted.measured⟩
      obtain ⟨eb, heb, hall⟩ := haccepted
      obtain ⟨d, hd, hclass⟩ := hall cpu
      obtain rfl := scopeDelta_of_not_beside halone heb hd
      exact hclass

end Enough

/-! ### Other checkpoints for the same runs -/

/-- Checkpoints of a run that is better than `slow` on every CPU. -/
def fast : List ℤ := [500, 500]

def slow : List ℤ := [2000]

def fastMetric : Cpu → ℚ
  | .cpu0 => 1
  | _ => 2

def slowMetric : Cpu → ℚ
  | .cpu0 => 2
  | _ => 1

/-- What has checkpoints is fast but where it is to be slow. -/
def retime (isSlow : Key → Text → Text → Bool) (data : Data) : Data :=
  data.mapItems fun key perCpu => perCpu.mapItems fun cpu runs => runs.mapItems fun cfg checkpoints =>
    if checkpoints.any (0 < ·) then if isSlow key cpu cfg then slow else fast else checkpoints

section Retime

variable (A : Arithmetic) (isSlow : Key → Text → Text → Bool) (data : Data)

theorem metric_fast (cpu : Cpu) : A.metricFromCheckpoints cpu fast = some (fastMetric cpu) := by
  have hsum : A.round 1000 = 1000 := A.natCast 1000 (by norm_num)
  have hone : A.round 1 = 1 := by simpa using A.natCast 1 (by norm_num)
  have htwo : A.round 2 = 2 := A.natCast 2 (by norm_num)
  cases cpu <;> norm_num [Arithmetic.metricFromCheckpoints, fast, fastMetric, hsum, hone, htwo, List.cons_ne_nil]

theorem metric_slow (cpu : Cpu) : A.metricFromCheckpoints cpu slow = some (slowMetric cpu) := by
  have hsum : A.round 2000 = 2000 := A.natCast 2000 (by norm_num)
  have hone : A.round 1 = 1 := by simpa using A.natCast 1 (by norm_num)
  have htwo : A.round 2 = 2 := A.natCast 2 (by norm_num)
  cases cpu <;> norm_num [Arithmetic.metricFromCheckpoints, slow, slowMetric, hsum, hone, htwo, List.cons_ne_nil]

theorem cpuData_retime (key : Key) (cpu : Cpu) : cpuData (retime isSlow data) key cpu =
    (cpuData data key cpu).mapItems fun cfg checkpoints =>
      if checkpoints.any (0 < ·) then if isSlow key cpu.name cfg then slow else fast else checkpoints := by
  rw [cpuData, cpuData, retime, Dict.get?_mapItems]
  cases data.get? key with
  | none => rfl
  | some perCpu =>
    simp only [Option.map_some, Option.bind_some, Dict.get?_mapItems]
    cases perCpu.get? cpu.name <;> rfl

theorem timed_retime (key : Key) (cpu : Cpu) (cfg : Text) :
    Timed (retime isSlow data) key cpu cfg ↔ Timed data key cpu cfg := by
  have hlists : ∀ checkpoints : List ℤ, (∃ ts ∈ (if checkpoints.any (0 < ·) then
      if isSlow key cpu.name cfg then slow else fast else checkpoints), 0 < ts) ↔ ∃ ts ∈ checkpoints, 0 < ts := by
    intro checkpoints
    by_cases hany : checkpoints.any (0 < ·)
    · rw [if_pos hany]
      refine iff_of_true ?_ (by simpa using hany)
      split
      · exact ⟨2000, List.mem_singleton_self _, by decide⟩
      · exact ⟨500, List.mem_cons_self, by decide⟩
    · rw [if_neg hany]
  rw [Timed, Timed, cpuData_retime, Dict.get?_mapItems]
  cases (cpuData data key cpu).get? cfg with
  | none => simp
  | some checkpoints => simpa using hlists checkpoints

theorem sameRuns_retime : SameRuns data (retime isSlow data) where
  keys key := by rw [retime, Dict.keys_mapItems]
  cfgs key cpu cfg := by rw [cpuData_retime, Dict.keys_mapItems]
  timed := timed_retime isSlow data

/-- The metrics then. -/
theorem get?_metrics_retime (key : Key) (cpu : Cpu) (cfg : Text) (v : ℚ) :
    (A.cpuCfgMetrics cpu (cpuData (retime isSlow data) key cpu)).get? cfg = some v ↔
      Timed data key cpu cfg ∧ v = if isSlow key cpu.name cfg then slowMetric cpu else fastMetric cpu := by
  rw [Arithmetic.cpuCfgMetrics, Dict.get?_filterMapValues, cpuData_retime, Dict.get?_mapItems, Timed]
  cases (cpuData data key cpu).get? cfg with
  | none => simp
  | some checkpoints =>
    have hany : checkpoints.any (0 < ·) ↔ ∃ ts ∈ checkpoints, 0 < ts := by simp
    simp only [Option.map_some, Option.bind_some, Option.some.injEq, exists_eq_left', ← hany]
    by_cases h : checkpoints.any (0 < ·)
    · rw [if_pos h, and_iff_right h]
      split
      · rw [metric_slow, Option.some.injEq, eq_comm]
      · rw [metric_fast, Option.some.injEq, eq_comm]
    · have hnone : A.metricFromCheckpoints cpu checkpoints = none :=
        Option.not_isSome_iff_eq_none.mp (mt isSome_metric.mp (mt hany.mpr h))
      rw [if_neg h, hnone]
      exact iff_of_false (by simp) fun hand => h hand.1

/-- A fast run is the baseline. -/
theorem baseline_retime {key : Key} {cpu : Cpu} {cfg : Text} {best : Text × ℚ}
    (hbest : baselineOf cpu (A.cpuCfgMetrics cpu (cpuData (retime isSlow data) key cpu)) = some best)
    (htimed : Timed data key cpu cfg) (hfast : isSlow key cpu.name cfg = false) : best.2 = fastMetric cpu := by
  obtain ⟨hmem, hall⟩ := baselineOf_spec hbest
  have hcell := (get?_metrics_retime A isSlow data key cpu cfg (fastMetric cpu)).mpr ⟨htimed, by rw [hfast]; rfl⟩
  have hle := hall _ (Dict.get?_eq_some.mp hcell)
  have hvalue := ((get?_metrics_retime A isSlow data key cpu best.1 best.2).mp (Dict.get?_eq_some.mpr hmem)).2
  split at hvalue
  · -- a slow one would not be the best
    rw [hvalue] at hle
    cases cpu with
    | cpu0 =>
      rw [if_pos rfl] at hle
      norm_num [fastMetric, slowMetric] at hle
    | cpu1 | cpu2 =>
      rw [if_neg (by decide)] at hle
      norm_num [fastMetric, slowMetric] at hle
  · exact hvalue

section Deltas

variable {A isSlow data} {scope : Scope} {b cfg eb : Text} {cpu : Cpu}

theorem scopeDelta_fast (hfast : isSlow (b, scope.cpu1bench, eb) cpu.name cfg = false) {d : ℚ}
    (hd : scopeDelta A (retime isSlow data) scope b cfg cpu eb = some d) : d = 0 := by
  obtain ⟨best, v, hbest, hv, rfl⟩ := cellDelta_eq_some.mp hd
  obtain ⟨htimed, hv⟩ := (get?_metrics_retime A isSlow data _ cpu cfg v).mp (Dict.get?_eq_some.mpr hv)
  rw [hv, hfast, baseline_retime A isSlow data hbest htimed hfast]
  exact deltaOf_self A cpu _

theorem scopeDelta_slow (hslow : isSlow (b, scope.cpu1bench, eb) cpu.name cfg = true)
    (htimed : Timed data (b, scope.cpu1bench, eb) cpu cfg) {cfg' : Text}
    (hfast : isSlow (b, scope.cpu1bench, eb) cpu.name cfg' = false)
    (htimed' : Timed data (b, scope.cpu1bench, eb) cpu cfg') :
    ∃ d, scopeDelta A (retime isSlow data) scope b cfg cpu eb = some d ∧ 0 < d := by
  obtain ⟨d, hd⟩ := Option.isSome_iff_exists.mp
    ((isSome_scopeDelta_iff (A := A)).mpr ((timed_retime isSlow data _ cpu cfg).mpr htimed))
  refine ⟨d, hd, ?_⟩
  obtain ⟨best, v, hbest, hv, rfl⟩ := cellDelta_eq_some.mp hd
  have hv := ((get?_metrics_retime A isSlow data _ cpu cfg v).mp (Dict.get?_eq_some.mpr hv)).2
  rw [hv, hslow, baseline_retime A isSlow data hbest htimed' hfast]
  cases cpu <;> exact A.quot_pos (by norm_num) (by norm_num [fastMetric, slowMetric]) (by norm_num [fastMetric])

end Deltas

end Retime

/-! ### Other data are not -/

section Needed

variable {A : Arithmetic} {data : Data} {scope : Scope}

/-- With negative tolerances nothing is accepted. -/
theorem not_accepted_of_neg {b cfg : Text} : ¬ Accepted A data scope (fun _ => -1) 1 b cfg := by
  rintro ⟨eb, -, hall⟩
  obtain ⟨d, hd, hclass⟩ := hall .cpu0
  have hnonneg := cellDelta_nonneg hd
  have hround : A.round (1 * -1) = -1 := by
    rw [one_mul, A.neg, show A.round 1 = 1 by simpa using A.natCast 1 (by norm_num)]
  rcases classOf_le_one_iff.mp hclass with h | h
  · linarith
  · rw [hround] at h
    linarith

/-- With tolerances of 0 a delta of 0 is accepted. -/
theorem accepted_of_zero {b cfg : Text} (hcomplete : Complete data scope b cfg) :
    Accepted A (retime (fun _ _ _ => false) data) scope (fun _ => 0) 1 b cfg := by
  obtain ⟨-, eb, heb, htimed⟩ := hcomplete
  refine ⟨eb, heb, fun cpu => ?_⟩
  obtain ⟨d, hd⟩ := Option.isSome_iff_exists.mp
    ((isSome_scopeDelta_iff (A := A)).mpr ((timed_retime (fun _ _ _ => false) data _ cpu cfg).mpr (htimed cpu)))
  obtain rfl := scopeDelta_fast rfl hd
  exact ⟨0, hd, classOf_le_one_iff.mpr (.inl le_rfl)⟩

/-- A row whose only slow run is beside another one has a mean that is not 0. -/
theorem means_ne_zero {b cfg eb : Text} {cpu : Cpu} (heb : eb ∈ scope.cpu2Set)
    {isSlow : Key → Text → Text → Bool} {d : ℚ}
    (hd : scopeDelta A (retime isSlow data) scope b cfg cpu eb = some d) (hpos : 0 < d) :
    ¬ (meanDelta A (retime isSlow data) scope b cfg .cpu0 = some 0 ∧
      worstDelta A (retime isSlow data) scope b cfg = some 0) := by
  rintro ⟨-, hworst⟩
  have hmem : eb ∈ embenchsOf (retime isSlow data) scope b :=
    mem_embenchsOf.mpr ⟨heb, isSome_scopeDelta (Option.isSome_iff_exists.mpr ⟨d, hd⟩)⟩
  obtain ⟨m, hm, hlt⟩ := mean_pos (A := A)
    (l := (embenchsOf (retime isSlow data) scope b).map (scopeDelta A (retime isSlow data) scope b cfg cpu))
    (fun x hx => by
      obtain ⟨eb', -, hx⟩ := List.mem_map.mp hx
      exact cellDelta_nonneg hx) ⟨d, hd ▸ List.mem_map_of_mem hmem, hpos⟩
  have hle : m ≤ 0 := le_nanmax (hm ▸ List.mem_map_of_mem (mem_cpuSequence cpu)) hworst
  exact absurd hlt (not_lt.mpr hle)

/-- Data whose means tie whatever the checkpoints and the tolerances are rankable. -/
theorem rankable_of_meansTie (h : ∀ data', SameRuns data data' → ∀ tau tolFactor,
    MeansTie A data' scope tau tolFactor) : Rankable data scope := by
  refine or_iff_not_imp_left.mpr fun hmissing => ?_
  -- some row has no mean, whatever the checkpoints
  have htie : ∀ isSlow tau tolFactor, _ := fun isSlow tau tolFactor =>
    (h (retime isSlow data) (sameRuns_retime isSlow data) tau tolFactor).resolve_left fun hall =>
      hmissing fun b cfg hdata => (sameRuns_retime isSlow data).measured.mp
        (hall b cfg ((sameRuns_retime isSlow data).hasData.mpr hdata))
  have hidle : ∀ isSlow tau tolFactor b cfg, HasMean data scope b cfg →
      ¬ Accepted A (retime isSlow data) scope tau tolFactor b cfg →
      Idle A (retime isSlow data) scope tau tolFactor b cfg := fun isSlow tau tolFactor b cfg hmean hnot =>
    ⟨(sameRuns_retime isSlow data).hasData.mpr hmean.hasData,
      (sameRuns_retime isSlow data).measured.mpr hmean.2, hnot⟩
  refine or_iff_not_imp_left.mpr fun hmany => ⟨fun b cfg hmean hbeside => ?_, ?_⟩
  · -- slow at one place beside another, and nowhere else
    obtain ⟨eb, heb, cpu, htimed, cfg', hne, htimed'⟩ := hbeside
    let isSlow : Key → Text → Text → Bool := fun key name c =>
      key = (b, scope.cpu1bench, eb) ∧ name = cpu.name ∧ c = cfg
    obtain ⟨b', cfg'', hmean', hother⟩ : ∃ b' cfg'', HasMean data scope b' cfg'' ∧ ¬ (b' = b ∧ cfg'' = cfg) := by
      by_contra hnone
      refine hmany fun b₁ cfg₁ b₂ cfg₂ h₁ h₂ => ?_
      obtain ⟨rfl, rfl⟩ := not_not.mp fun hn => hnone ⟨b₁, cfg₁, h₁, hn⟩
      obtain ⟨rfl, rfl⟩ := not_not.mp fun hn => hnone ⟨b₂, cfg₂, h₂, hn⟩
      exact ⟨rfl, rfl⟩
    have hslow : isSlow (b, scope.cpu1bench, eb) cpu.name cfg = true := by simp [isSlow]
    obtain ⟨d, hd, hpos⟩ := scopeDelta_slow (A := A) hslow htimed
      (by simp [isSlow, hne]) htimed'
    have hzero := means_zero (A := A) ((sameRuns_retime isSlow data).measured.mpr hmean'.2)
      fun cpu' eb' _ d' hd' => scopeDelta_fast (by
        rw [decide_eq_false_iff_not]
        rintro ⟨hkey, -, hcfg⟩
        exact hother ⟨congrArg Prod.fst hkey, hcfg⟩) hd'
    have hsame := (htie isSlow (fun _ => -1) 1).1 b cfg b' cfg''
      (hidle isSlow _ _ b cfg hmean not_accepted_of_neg) (hidle isSlow _ _ b' cfg'' hmean' not_accepted_of_neg)
    rw [hzero.1, hzero.2] at hsame
    exact means_ne_zero heb hd hpos hsame
  · -- everything fast: what is complete is accepted
    by_contra hnot
    rw [not_or] at hnot
    obtain ⟨hcfgs, hcomplete⟩ := hnot
    rcases (htie (fun _ _ _ => false) (fun _ => 0) 1).2 with hcfg | hnone
    · refine hcfgs fun b cfg b' cfg' hmean hmean' hin hin' => ?_
      have hidle : ∀ {b cfg : Text}, HasMean data scope b cfg → ¬ Complete data scope b cfg →
          Idle A (retime (fun _ _ _ => false) data) scope (fun _ => 0) 1 b cfg := fun {b cfg} hmean hin =>
        hidle _ _ _ b cfg hmean fun haccepted => hin ⟨hmean.1, by
          simpa only [(sameRuns_retime (fun _ _ _ => false) data).timed] using haccepted.timed⟩
      exact hcfg b cfg b' cfg' (hidle hmean hin) (hidle hmean' hin')
    · refine hcomplete fun b cfg hb => ?_
      exact hnone b cfg ((sameRuns_retime _ data).hasData.mpr hb.hasMean.hasData) (accepted_of_zero hb)

end Needed

/-- **Main result.** For every scope and whatever the arithmetic: the ranking of
all data with the same runs, with all tolerances and by every stable sort, has
one row for each benchmark and configuration with data and the rows in the
order of the objectives, iff the runs are rankable. -/
theorem ranked_iff (A : Arithmetic) (u : UnicodeData) {data : Data} {scope : Scope} (hin : InScope data scope) :
    (∀ data', SameRuns data data' → ∀ tau tolFactor sort, IsStableSort sort →
      ∃ rows, A.rankConfigsForAutotune u sort data' scope tau tolFactor = .ok rows ∧ Ranked u data' scope rows) ↔
        Rankable data scope := by
  constructor
  · exact fun h => rankable_of_meansTie fun data' hsame tau tolFactor =>
      (ranked_iff_meansTie (A := A) (hsame.inScope hin) tau tolFactor).mp (h data' hsame tau tolFactor)
  · exact fun h data' hsame tau tolFactor => (ranked_iff_meansTie (hsame.inScope hin) tau tolFactor).mpr
      (meansTie_of_rankable (hsame.rankable.mpr h))

/-! ### A row without a mean -/

def fftKey : Key := ("fft".toList, "cache_w".toList, "crc32".toList)

def fftScope : Scope where
  cpu0List := [fftKey.1]
  nodup := List.nodup_singleton _
  cpu1bench := fftKey.2.1
  cpu2Set := {fftKey.2.2}

def fftRuns : Dict Text (List ℤ) := .ofList [(interf, [4000]), ("2_4_2-8".toList, [2000])]

/-- Checkpoints of CPU0 for two configurations. -/
def fftData : Data := .ofList [(fftKey, .ofList [(Cpu.cpu0.name, fftRuns)])]

/-- And of CPU1 for a third one. -/
def fftDataMore : Data :=
  .ofList [(fftKey, .ofList [(Cpu.cpu0.name, fftRuns), (Cpu.cpu1.name, .ofList [("2_2_4-8".toList, [1])])])]

theorem fft_inScope : InScope fftData fftScope := fun b hb => by
  obtain rfl := List.mem_singleton.mp hb
  exact ⟨fftKey.2.2, by decide +kernel, by decide +kernel⟩

/-- With checkpoints of CPU0 for both they are ranked. -/
theorem fft_ranked : ∃ rows,
    rationals.rankConfigsForAutotune asciiData insertionSortBy fftData fftScope (fun _ => 10) (3 / 2) = .ok rows ∧
      Ranked asciiData fftData fftScope rows := by
  refine (ranked_iff rationals asciiData fft_inScope).mpr (.inl ?_) fftData (.refl fftData) (fun _ => 10) (3 / 2)
    insertionSortBy isStableSort_insertionSortBy
  rintro b cfg ⟨hb, eb, heb, cpu, hcfg⟩
  obtain rfl := List.mem_singleton.mp hb
  obtain rfl := Finset.mem_singleton.mp heb
  have hkeys : ∀ cpu, (cpuData fftData fftKey cpu).keys ⊆ [interf, "2_4_2-8".toList] := by
    intro cpu
    cases cpu <;> decide +kernel
  rcases List.mem_cons.mp (hkeys cpu hcfg) with rfl | h
  · exact ⟨_, heb, [4000], by decide +kernel, 4000, List.mem_singleton_self _, by decide⟩
  · obtain rfl := List.mem_singleton.mp h
    exact ⟨_, heb, [2000], by decide +kernel, 2000, List.mem_singleton_self _, by decide⟩

/-- The third one stands between them, and they are left out of order. -/
theorem fft_unranked : InScope fftDataMore fftScope ∧ IsStableSort (α := Row) insertionSortBy ∧
    ∃ rows, rationals.rankConfigsForAutotune asciiData insertionSortBy fftDataMore fftScope (fun _ => 10) (3 / 2) = .ok rows ∧
      (rows.map fun r => (r.cfg, r.acceptRate, r.meanD0)) =
        [(interf, 0, some 100), ("2_2_4-8".toList, 0, none), ("2_4_2-8".toList, 0, some 0)] ∧
      ¬ Ranked asciiData fftDataMore fftScope rows := by
  have hrun : ((rationals.rankConfigsForAutotune asciiData insertionSortBy fftDataMore fftScope (fun _ => 10)
      (3 / 2)).toOption.map fun rows => rows.map fun r => (r.cfg, r.acceptRate, r.meanD0)) =
        some [(interf, 0, some 100), ("2_2_4-8".toList, 0, none), ("2_4_2-8".toList, 0, some 0)] := by
    decide +kernel
  refine ⟨fun b hb => ?_, isStableSort_insertionSortBy, ?_⟩
  · obtain rfl := List.mem_singleton.mp hb
    exact ⟨fftKey.2.2, by decide +kernel, by decide +kernel⟩
  cases hrank : rationals.rankConfigsForAutotune asciiData insertionSortBy fftDataMore fftScope (fun _ => 10) (3 / 2) with
  | error e =>
    rw [hrank] at hrun
    cases hrun
  | ok rows =>
    rw [hrank] at hrun
    have hrows := Option.some.inj hrun
    refine ⟨rows, rfl, hrows, fun h => ?_⟩
    obtain ⟨r, rest, rfl, hr, hrest⟩ := List.map_eq_cons_iff.mp hrows
    obtain ⟨n, rest, rfl, -, hrest⟩ := List.map_eq_cons_iff.mp hrest
    obtain ⟨s, rest, rfl, hs, -⟩ := List.map_eq_cons_iff.mp hrest
    simp only [Prod.mk.injEq] at hr hs
    have hnot : ¬ Better s r := (List.pairwise_cons.mp h.ordered).1 s (by simp)
    exact hnot (.inr ⟨hs.2.1.trans hr.2.1.symm, 0, 100, hs.2.2, hr.2.2, .inl (by norm_num)⟩)

end Tuner
end DaatMcs
