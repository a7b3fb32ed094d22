/-
# The ranking of the configurations

`rank_configs_for_autotune` makes a row for every configuration of every
selected benchmark of CPU0 and sorts the rows by acceptance rate, mean delta
of CPU0 and worst mean delta. A mean of no deltas is NaN, for which `<` is
false, so the comparison of the rows need not be an order and a sort need not
respect any of it. `ranked_iff_meansTie`: the rows are always those of the
data in scope, and every stable sort puts them in the order of the objectives
exactly where no row is without a CPU0 mean, or the rows such a row stands
between make no difference.
-/
import DaatMcs.Lib.StableSort
import DaatMcs.Tuner.Accept
import Mathlib.Data.List.ReduceOption

namespace DaatMcs
namespace Tuner

/-! ### Rows -/

structure Row where
  cpu0bench : Text
  cfg : Text
  cfgLabel : Text
  acceptRate : ℚ
  meanD0 : Option ℚ
  meanD1 : Option ℚ
  meanD2 : Option ℚ
  worstMean : Option ℚ
  total : ℕ
  accepted : ℕ
deriving DecidableEq

/-- `np.nanmean`; of NaN alone it is not asked, and the mean is NaN. -/
def Arithmetic.mean (A : Arithmetic) (l : List (Option ℚ)) : Option ℚ :=
  if l.reduceOption = [] then none else some (A.nanmean l)

/-- `np.nanmax`; of NaN alone it is NaN. -/
def nanmax (l : List (Option ℚ)) : Option ℚ := l.reduceOption.max?

/-- `==` of floats. -/
def nanEq : Option ℚ → Option ℚ → Bool
  | some x, some y => x = y
  | _, _ => false

/-- `<` of floats. -/
def nanLt : Option ℚ → Option ℚ → Bool
  | some x, some y => x < y
  | _, _ => false

/-- `<` of tuples, by `==` and `<` of their elements: the first that are not
equal decide. -/
def tupleLt : List (Bool × Bool) → Bool
  | [] => false
  | (eq, lt) :: rest => if eq then tupleLt rest else lt

/-- `key(r) < key(s)`. -/
def keyLt (r s : Row) : Bool :=
  tupleLt
    [(-r.acceptRate = -s.acceptRate, -r.acceptRate < -s.acceptRate),
      (nanEq r.meanD0 s.meanD0, nanLt r.meanD0 s.meanD0),
      (nanEq r.worstMean s.worstMean, nanLt r.worstMean s.worstMean),
      (r.cfg = s.cfg, r.cfg < s.cfg)]

/-- The row of the configuration at `i`; `mat[i, :]` are its entries for the
benchmarks of CPU2. -/
def Arithmetic.rankRow (A : Arithmetic) (m : Matrices) (cpu0bench : Text) (cfg : Text × ℕ) : Row :=
  let i := cfg.2
  let columns := List.range m.embenchList.length
  let total := columns.countP fun j => cpuSequence.all fun cpu => ((m.classByCpu cpu).at i j).isSome
  let accepted := columns.countP fun j => rankOk m i j
  let mean := fun cpu => A.mean (columns.map ((m.deltaByCpu cpu).at i))
  { cpu0bench := cpu0bench
    cfg := cfg.1
    cfgLabel := cfgLabel cfg.1
    acceptRate := if total = 0 then 0 else A.round (A.round (100 * accepted) / total)
    meanD0 := mean .cpu0
    meanD1 := mean .cpu1
    meanD2 := mean .cpu2
    worstMean := nanmax [mean .cpu0, mean .cpu1, mean .cpu2]
    total := total
    accepted := accepted }

/-! ### The ranking -/

/-- What is ranked: the benchmarks selected for the CPUs. -/
structure Scope where
  cpu0List : List Text
  nodup : cpu0List.Nodup
  cpu1bench : Text
  cpu2Set : Finset Text

def Scope.selection (scope : Scope) (cpu0bench : Text) : Selection :=
  ⟨cpu0bench, some scope.cpu1bench, some scope.cpu2Set⟩

def detectConfigsInScope (u : UnicodeData) (data : Data) (scope : Scope) : List Text :=
  sortedSet (cfgSortKey u) <| data.items.flatMap fun e =>
    if scope.cpu0List.contains e.1.1 ∧ e.1.2.1 = scope.cpu1bench ∧ e.1.2.2 ∈ scope.cpu2Set then
      cpuSequence.flatMap fun cpu => ((e.2.get? cpu.name).getD .empty).keys
    else []

/-- `sort` is `sorted`, given the comparison of the keys. -/
def Arithmetic.rankConfigsForAutotune (A : Arithmetic) (u : UnicodeData)
    (sort : (Row → Row → Bool) → List Row → List Row) (data : Data) (scope : Scope) (tau : Cpu → ℚ) (tolFactor : ℚ) : Except KeysError (List Row) :=
  (scope.cpu0List.mapM fun cpu0bench =>
    (A.buildMatrices u data (scope.selection cpu0bench) tau tolFactor).map fun m =>
      m.cfgList.zipIdx.map (A.rankRow m cpu0bench)).map fun rows => sort keyLt rows.flatten

/-! ### What it is for -/

/-- The objectives: a higher rate, then a smaller mean of CPU0, then a smaller
worst mean. -/
def Better (r s : Row) : Prop :=
  s.acceptRate < r.acceptRate ∨ r.acceptRate = s.acceptRate ∧
    ∃ x y, r.meanD0 = some x ∧ s.meanD0 = some y ∧
      (x < y ∨ x = y ∧ ∃ v w, r.worstMean = some v ∧ s.worstMean = some w ∧ v < w)

/-- Every selected benchmark has an entry. -/
def InScope (data : Data) (scope : Scope) : Prop :=
  ∀ b ∈ scope.cpu0List, ∃ eb ∈ scope.cpu2Set, (b, scope.cpu1bench, eb) ∈ data.keys

/-- Some CPU has an entry for the configuration with the benchmark. -/
def HasData (data : Data) (scope : Scope) (b cfg : Text) : Prop :=
  b ∈ scope.cpu0List ∧ ∃ eb ∈ scope.cpu2Set, ∃ cpu, cfg ∈ (cpuData data (b, scope.cpu1bench, eb) cpu).keys

/-- One row for everything that has data, in the order of the objectives. -/
structure Ranked (u : UnicodeData) (data : Data) (scope : Scope) (rows : List Row) : Prop where
  nodup : (rows.map fun r => (r.cpu0bench, r.cfg)).Nodup
  covers : ∀ b cfg, (b, cfg) ∈ rows.map (fun r => (r.cpu0bench, r.cfg)) ↔ HasData data scope b cfg
  detected : ∀ cfg, cfg ∈ rows.map Row.cfg ↔ cfg ∈ detectConfigsInScope u data scope
  ordered : rows.Pairwise fun r s => ¬ Better s r

/-! ### Comparing rows -/

/-- What the rows of the ranking satisfy. -/
structure Row.Sound (r : Row) : Prop where
  rate_nonneg : 0 ≤ r.acceptRate
  rate_of_none : r.meanD0 = none → r.acceptRate = 0
  worst : r.meanD0.isSome → r.worstMean.isSome

theorem keyLt_of_better {r s : Row} (h : Better r s) : keyLt r s := by
  rcases h with hrate | ⟨hrate, x, y, hx, hy, hmean⟩
  · simp [keyLt, tupleLt, hrate, hrate.ne']
  · rcases hmean with hlt | ⟨rfl, v, w, hv, hw, hlt⟩
    · simp [keyLt, tupleLt, hrate, hx, hy, nanEq, nanLt, hlt, hlt.ne]
    · simp [keyLt, tupleLt, hrate, hx, hy, hv, hw, nanEq, nanLt, hlt, hlt.ne]

theorem not_better_self (r : Row) : ¬ Better r r := by
  rintro (h | ⟨-, x, y, hx, hy, h⟩)
  · exact lt_irrefl _ h
  · obtain rfl := Option.some.inj (hx.symm.trans hy)
    rcases h with h | ⟨-, v, w, hv, hw, h⟩
    · exact lt_irrefl _ h
    · obtain rfl := Option.some.inj (hv.symm.trans hw)
      exact lt_irrefl _ h

/-- Rows are compared by their rates, and by means only where both have them. -/
theorem keyLt_iff {r s : Row} (hr : r.Sound) (hs : s.Sound) :
    keyLt r s ↔ s.acceptRate < r.acceptRate ∨ r.acceptRate = s.acceptRate ∧
      ∃ x y v w, r.meanD0 = some x ∧ s.meanD0 = some y ∧ r.worstMean = some v ∧ s.worstMean = some w ∧
        toLex (x, toLex (v, r.cfg)) < toLex (y, toLex (w, s.cfg)) := by
  by_cases hrate : r.acceptRate = s.acceptRate
  · rw [or_iff_right (fun h => absurd hrate h.ne'), and_iff_right hrate]
    cases hx : r.meanD0 with
    | none => simp [keyLt, tupleLt, hrate, hx, nanEq, nanLt]
    | some x =>
      cases hy : s.meanD0 with
      | none => simp [keyLt, tupleLt, hrate, hx, hy, nanEq, nanLt]
      | some y =>
        obtain ⟨v, hv⟩ := Option.isSome_iff_exists.mp (hr.worst (by rw [hx]; rfl))
        obtain ⟨w, hw⟩ := Option.isSome_iff_exists.mp (hs.worst (by rw [hy]; rfl))
        by_cases hxy : x = y <;> by_cases hvw : v = w <;>
          simp [keyLt, tupleLt, hrate, hx, hy, hv, hw, nanEq, nanLt, hxy, hvw, Prod.Lex.toLex_lt_toLex]
        exact ne_of_lt
  · simp [keyLt, tupleLt, hrate]

/-- Where a row without a mean of CPU0 makes no difference between those of its
rate, the comparison is a weak order. -/
theorem weakOrderOn_keyLt {rows : List Row} (hsound : ∀ r ∈ rows, r.Sound)
    (hnan : ∀ n ∈ rows, n.meanD0 = none → ∀ r ∈ rows, ∀ s ∈ rows, r.acceptRate = n.acceptRate →
      s.acceptRate = n.acceptRate → ¬ keyLt r s) : WeakOrderOn keyLt rows where
  asymm r hr s hs hlt hgt := by
    rw [keyLt_iff (hsound r hr) (hsound s hs)] at hlt
    rw [keyLt_iff (hsound s hs) (hsound r hr)] at hgt
    rcases hlt with hlt | ⟨hrate, x, y, v, w, hx, hy, hv, hw, hlt⟩
    · rcases hgt with hgt | ⟨hrate, -⟩
      · exact lt_asymm hlt hgt
      · exact hlt.ne hrate
    · rcases hgt with hgt | ⟨-, y', x', w', v', hy', hx', hw', hv', hgt⟩
      · exact hgt.ne hrate
      · obtain rfl := Option.some.inj (hx.symm.trans hx')
        obtain rfl := Option.some.inj (hy.symm.trans hy')
        obtain rfl := Option.some.inj (hv.symm.trans hv')
        obtain rfl := Option.some.inj (hw.symm.trans hw')
        exact lt_asymm hlt hgt
  cotrans r hr s hs t ht hlt := by
    rw [keyLt_iff (hsound r hr) (hsound s hs), keyLt_iff (hsound s hs) (hsound t ht)]
    have hlt' := (keyLt_iff (hsound r hr) (hsound t ht)).mp hlt
    rcases hlt' with hrate | ⟨hrate, x, y, v, w, hx, hy, hv, hw, hkey⟩
    · rcases lt_or_ge s.acceptRate r.acceptRate with h | h
      · exact .inl (.inl h)
      · exact .inr (.inl (hrate.trans_le h))
    · rcases lt_trichotomy s.acceptRate r.acceptRate with h | h | h
      · exact .inl (.inl h)
      · -- all three have the same rate, so the one between has a mean
        cases hz : s.meanD0 with
        | none => exact absurd hlt (hnan s hs hz r hr t ht h.symm (hrate.symm.trans h.symm))
        | some z =>
          obtain ⟨u, hu⟩ := Option.isSome_iff_exists.mp ((hsound s hs).worst (by rw [hz]; rfl))
          rcases lt_or_ge (toLex (x, toLex (v, r.cfg))) (toLex (z, toLex (u, s.cfg))) with hless | hge
          · exact .inl (.inr ⟨h.symm, x, z, v, u, hx, rfl, hv, hu, hless⟩)
          · exact .inr (.inr ⟨h.trans hrate, z, y, u, w, rfl, hy, hu, hw, hge.trans_lt hkey⟩)
      · exact .inr (.inl (hrate ▸ h))

/-- A row that is never accepted and has a mean of CPU0. -/
def Row.Idle (r : Row) : Prop := r.acceptRate = 0 ∧ r.meanD0.isSome

/-- Every row has a mean of CPU0; or those that are never accepted have the
same means, and are rows of one configuration or all the rows there are. -/
def Settled (rows : List Row) : Prop :=
  (∀ r ∈ rows, r.meanD0.isSome) ∨
    (∀ r ∈ rows, ∀ s ∈ rows, r.Idle → s.Idle → r.meanD0 = s.meanD0 ∧ r.worstMean = s.worstMean) ∧
      ((∀ r ∈ rows, ∀ s ∈ rows, r.Idle → s.Idle → r.cfg = s.cfg) ∨ ∀ r ∈ rows, r.acceptRate = 0)

theorem not_keyLt_of_none {r n : Row} (hr : r.Sound) (hn : n.Sound) (hnone : n.meanD0 = none)
    (hrate : r.acceptRate = n.acceptRate) : ¬ keyLt r n ∧ ¬ keyLt n r := by
  rw [keyLt_iff hr hn, keyLt_iff hn hr]
  constructor
  · rintro (h | ⟨-, x, y, v, w, hx, hy, -⟩)
    · exact h.ne' hrate
    · cases hnone.symm.trans hy
  · rintro (h | ⟨-, x, y, v, w, hx, hy, -⟩)
    · exact h.ne hrate
    · cases hnone.symm.trans hx

theorem Row.Idle.exists_means {r : Row} (hr : r.Sound) (hi : r.Idle) :
    ∃ x v, r.meanD0 = some x ∧ r.worstMean = some v := by
  obtain ⟨x, hx⟩ := Option.isSome_iff_exists.mp hi.2
  obtain ⟨v, hv⟩ := Option.isSome_iff_exists.mp (hr.worst hi.2)
  exact ⟨x, v, hx, hv⟩

/-- Idle rows that do not differ for the comparison are the same for it. -/
theorem Row.Idle.tie {r s : Row} (hr : r.Sound) (hs : s.Sound) (hir : r.Idle) (his : s.Idle)
    (hlt : ¬ keyLt r s) (hgt : ¬ keyLt s r) :
    r.meanD0 = s.meanD0 ∧ r.worstMean = s.worstMean ∧ r.cfg = s.cfg := by
  obtain ⟨x, v, hx, hv⟩ := hir.exists_means hr
  obtain ⟨y, w, hy, hw⟩ := his.exists_means hs
  have hrate : r.acceptRate = s.acceptRate := hir.1.trans his.1.symm
  rcases lt_trichotomy (toLex (x, toLex (v, r.cfg))) (toLex (y, toLex (w, s.cfg))) with h | h | h
  · exact absurd ((keyLt_iff hr hs).mpr (.inr ⟨hrate, x, y, v, w, hx, hy, hv, hw, h⟩)) hlt
  · rw [toLex_inj, Prod.mk.injEq, toLex_inj, Prod.mk.injEq] at h
    rw [hx, hy, hv, hw, h.1, h.2.1]
    exact ⟨rfl, rfl, h.2.2⟩
  · exact absurd ((keyLt_iff hs hr).mpr (.inr ⟨hrate.symm, y, x, w, v, hy, hx, hw, hv, h⟩)) hgt

/-- Idle rows of which neither is better have the same means. -/
theorem Row.Idle.means {r s : Row} (hr : r.Sound) (hs : s.Sound) (hir : r.Idle) (his : s.Idle)
    (hlt : ¬ Better r s) (hgt : ¬ Better s r) : r.meanD0 = s.meanD0 ∧ r.worstMean = s.worstMean := by
  obtain ⟨x, v, hx, hv⟩ := hir.exists_means hr
  obtain ⟨y, w, hy, hw⟩ := his.exists_means hs
  have hrate : r.acceptRate = s.acceptRate := hir.1.trans his.1.symm
  have hmean : x = y := by
    rcases lt_trichotomy x y with h | h | h
    · exact absurd (.inr ⟨hrate, x, y, hx, hy, .inl h⟩) hlt
    · exact h
    · exact absurd (.inr ⟨hrate.symm, y, x, hy, hx, .inl h⟩) hgt
  have hworst : v = w := by
    rcases lt_trichotomy v w with h | h | h
    · exact absurd (.inr ⟨hrate, x, y, hx, hy, .inr ⟨hmean, v, w, hv, hw, h⟩⟩) hlt
    · exact h
    · exact absurd (.inr ⟨hrate.symm, y, x, hy, hx, .inr ⟨hmean.symm, w, v, hw, hv, h⟩⟩) hgt
  exact ⟨by rw [hx, hy, hmean], by rw [hv, hw, hworst]⟩

/-- Every sort respects the objectives for just these rows. -/
theorem sorts_respect_objectives_iff {rows : List Row} (hsound : ∀ r ∈ rows, r.Sound) :
    (∀ sort, IsStableSort sort → (sort keyLt rows).Pairwise fun r s => ¬ Better s r) ↔ Settled rows := by
  refine (sorts_respect_iff (R := Better) (fun _ _ => keyLt_of_better) not_better_self).trans ⟨?_, ?_⟩
  · intro h
    refine or_iff_not_imp_left.mpr fun hall => ?_
    obtain ⟨n, hn, hnone⟩ : ∃ n ∈ rows, n.meanD0 = none := by
      simpa only [not_forall, exists_prop, Option.not_isSome_iff_eq_none] using hall
    have hzero : n.acceptRate = 0 := (hsound n hn).rate_of_none hnone
    rcases h with hweak | hnever
    · have htie : ∀ r ∈ rows, ∀ s ∈ rows, r.Idle → s.Idle → ¬ keyLt r s := by
        intro r hr s hs hir his hlt
        rcases hweak.cotrans r hr n hn s hs hlt with h | h
        · exact (not_keyLt_of_none (hsound r hr) (hsound n hn) hnone (hir.1.trans hzero.symm)).1 h
        · exact (not_keyLt_of_none (hsound s hs) (hsound n hn) hnone (his.1.trans hzero.symm)).2 h
      refine ⟨fun r hr s hs hir his => ?_, .inl fun r hr s hs hir his => ?_⟩
      · have h := hir.tie (hsound r hr) (hsound s hs) his (htie r hr s hs hir his) (htie s hs r hr his hir)
        exact ⟨h.1, h.2.1⟩
      · exact (hir.tie (hsound r hr) (hsound s hs) his (htie r hr s hs hir his)
          (htie s hs r hr his hir)).2.2
    · refine ⟨fun r hr s hs hir his => hir.means (hsound r hr) (hsound s hs) his (hnever r hr s hs)
        (hnever s hs r hr), .inr fun r hr => ?_⟩
      have hle : ¬ n.acceptRate < r.acceptRate := fun hlt => hnever r hr n hn (.inl hlt)
      rw [hzero, not_lt] at hle
      exact le_antisymm hle (hsound r hr).rate_nonneg
  · rintro (hall | ⟨htie, hcfg | hzero⟩)
    · refine .inl (weakOrderOn_keyLt hsound fun n hn hnone => ?_)
      have h := hall n hn
      rw [hnone] at h
      cases h
    · refine .inl (weakOrderOn_keyLt hsound fun n hn hnone r hr s hs hrate hrate' hlt => ?_)
      have hzero : n.acceptRate = 0 := (hsound n hn).rate_of_none hnone
      rw [keyLt_iff (hsound r hr) (hsound s hs)] at hlt
      rcases hlt with hlt | ⟨-, x, y, v, w, hx, hy, hv, hw, hlt⟩
      · rw [hrate, hrate'] at hlt
        exact lt_irrefl _ hlt
      · have hir : r.Idle := ⟨hrate.trans hzero, by rw [hx]; rfl⟩
        have his : s.Idle := ⟨hrate'.trans hzero, by rw [hy]; rfl⟩
        obtain ⟨hmean, hworst⟩ := htie r hr s hs hir his
        rw [hx, hy, Option.some.injEq] at hmean
        rw [hv, hw, Option.some.injEq] at hworst
        rw [hmean, hworst, hcfg r hr s hs hir his] at hlt
        exact lt_irrefl _ hlt
    · right
      rintro r hr s hs (hlt | ⟨-, x, y, hx, hy, hlt⟩)
      · rw [hzero r hr, hzero s hs] at hlt
        exact lt_irrefl _ hlt
      · obtain ⟨hmean, hworst⟩ := htie r hr s hs ⟨hzero r hr, by rw [hx]; rfl⟩ ⟨hzero s hs, by rw [hy]; rfl⟩
        rw [hx, hy, Option.some.injEq] at hmean
        rcases hlt with hlt | ⟨-, v, w, hv, hw, hlt⟩
        · exact hlt.ne hmean
        · rw [hv, hw, Option.some.injEq] at hworst
          exact hlt.ne hworst

/-! ### The data in scope -/

variable {u : UnicodeData}

section Inputs

variable (A : Arithmetic) (data : Data) (scope : Scope)

def embenchsOf (b : Text) : List Text :=
  sortedSet id ((keysInScope data (scope.selection b)).map fun key => key.2.2)

/-- The delta of a configuration with the benchmarks of the three CPUs. -/
def scopeDelta (b cfg : Text) (cpu : Cpu) (eb : Text) : Option ℚ :=
  A.cellDelta cpu (cpuData data (b, scope.cpu1bench, eb) cpu) cfg

/-- Its mean delta over the benchmarks of CPU2, if any are there. -/
def meanDelta (b cfg : Text) (cpu : Cpu) : Option ℚ :=
  A.mean ((embenchsOf data scope b).map (scopeDelta A data scope b cfg cpu))

def worstDelta (b cfg : Text) : Option ℚ := nanmax (cpuSequence.map (meanDelta A data scope b cfg))

/-- There are valid checkpoints of the CPU in the run of a configuration. -/
def Timed (key : Key) (cpu : Cpu) (cfg : Text) : Prop :=
  ∃ checkpoints, (cpuData data key cpu).get? cfg = some checkpoints ∧ ∃ ts ∈ checkpoints, 0 < ts

/-- Some run has valid checkpoints of CPU0. -/
def Measured (b cfg : Text) : Prop := ∃ eb ∈ scope.cpu2Set, Timed data (b, scope.cpu1bench, eb) .cpu0 cfg

/-- With some benchmark of CPU2 all CPUs have an acceptable class. -/
def Accepted (tau : Cpu → ℚ) (tolFactor : ℚ) (b cfg : Text) : Prop :=
  ∃ eb ∈ scope.cpu2Set, ∀ cpu, ∃ d, scopeDelta A data scope b cfg cpu eb = some d ∧
    A.classOf (tau cpu) tolFactor d ≤ 1

/-- A configuration that is compared by its means with one that has none. -/
def Idle (tau : Cpu → ℚ) (tolFactor : ℚ) (b cfg : Text) : Prop :=
  HasData data scope b cfg ∧ Measured data scope b cfg ∧ ¬ Accepted A data scope tau tolFactor b cfg

/-- Every pair that has data has checkpoints of CPU0; or those that have some and
are never accepted have the same means, and are of one configuration, or
nothing is accepted at all. -/
def MeansTie (tau : Cpu → ℚ) (tolFactor : ℚ) : Prop :=
  (∀ b cfg, HasData data scope b cfg → Measured data scope b cfg) ∨
    (∀ b cfg b' cfg', Idle A data scope tau tolFactor b cfg → Idle A data scope tau tolFactor b' cfg' →
      meanDelta A data scope b cfg .cpu0 = meanDelta A data scope b' cfg' .cpu0 ∧
        worstDelta A data scope b cfg = worstDelta A data scope b' cfg') ∧
      ((∀ b cfg b' cfg', Idle A data scope tau tolFactor b cfg → Idle A data scope tau tolFactor b' cfg' →
          cfg = cfg') ∨
        ∀ b cfg, HasData data scope b cfg → ¬ Accepted A data scope tau tolFactor b cfg)

end Inputs

theorem mem_keysInScope {data : Data} {scope : Scope} {b : Text} {key : Key} :
    key ∈ keysInScope data (scope.selection b) ↔
      key ∈ data.keys ∧ ∃ eb ∈ scope.cpu2Set, key = (b, scope.cpu1bench, eb) := by
  obtain ⟨b', c, eb⟩ := key
  simp only [keysInScope, Scope.selection, Selection.has, List.mem_filter, Option.mem_def, Option.some.injEq,
    forall_eq', decide_eq_true_eq, Prod.mk.injEq]
  constructor
  · rintro ⟨hkey, hb, hc, heb⟩
    exact ⟨hkey, eb, heb, hb, hc.symm ▸ rfl, rfl⟩
  · rintro ⟨hkey, eb', heb, hb, hc, rfl⟩
    exact ⟨hkey, hb, hc, heb⟩

theorem mem_keys_of_cpuData {data : Data} {key : Key} {cpu : Cpu} {cfg : Text}
    (h : cfg ∈ (cpuData data key cpu).keys) : key ∈ data.keys := by
  cases hkey : data.get? key with
  | none =>
    rw [cpuData, hkey] at h
    cases h
  | some v => exact Dict.mem_keys.mpr ⟨v, Dict.get?_eq_some.mp hkey⟩

theorem mem_embenchsOf {data : Data} {scope : Scope} {b eb : Text} :
    eb ∈ embenchsOf data scope b ↔ eb ∈ scope.cpu2Set ∧ (b, scope.cpu1bench, eb) ∈ data.keys := by
  simp only [embenchsOf, mem_sortedSet, List.mem_map, mem_keysInScope]
  constructor
  · rintro ⟨key, ⟨hkey, eb', heb, rfl⟩, rfl⟩
    exact ⟨heb, hkey⟩
  · rintro ⟨heb, hkey⟩
    exact ⟨_, ⟨hkey, eb, heb, rfl⟩, rfl⟩

theorem mem_cfgsOf {data : Data} {scope : Scope} {b cfg : Text} :
    cfg ∈ orderCfgList u (cfgsOf data (keysInScope data (scope.selection b))) ↔
      ∃ eb ∈ scope.cpu2Set, ∃ cpu, cfg ∈ (cpuData data (b, scope.cpu1bench, eb) cpu).keys := by
  simp only [orderCfgList, mem_sortedSet, cfgsOf, List.mem_flatMap, mem_keysInScope, mem_cpuSequence, true_and]
  constructor
  · rintro ⟨key, ⟨-, eb, heb, rfl⟩, cpu, hcfg⟩
    exact ⟨eb, heb, cpu, hcfg⟩
  · rintro ⟨eb, heb, cpu, hcfg⟩
    exact ⟨_, ⟨mem_keys_of_cpuData hcfg, eb, heb, rfl⟩, cpu, hcfg⟩

theorem isSome_metric {A : Arithmetic} {cpu : Cpu} {checkpoints : List ℤ} :
    (A.metricFromCheckpoints cpu checkpoints).isSome ↔ ∃ ts ∈ checkpoints, 0 < ts := by
  have hnil : checkpoints.filter (fun ts => 0 < ts) = [] ↔ ¬ ∃ ts ∈ checkpoints, 0 < ts := by
    simp [List.filter_eq_nil_iff]
  unfold Arithmetic.metricFromCheckpoints
  simp only
  split
  · next h => exact iff_of_false Bool.false_ne_true (hnil.mp h)
  · next h =>
    refine iff_of_true ?_ (not_not.mp (mt hnil.mpr h))
    cases cpu <;> rfl

theorem isSome_baselineOf (cpu : Cpu) {values : Dict Text ℚ} {e : Text × ℚ} (he : e ∈ values.items) :
    (baselineOf cpu values).isSome := by
  have hne : values.items ≠ [] := List.ne_nil_of_mem he
  rw [Option.isSome_iff_ne_none]
  cases cpu with
  | cpu0 => exact fun h => hne (List.argmin_eq_none.mp h)
  | cpu1 | cpu2 => exact fun h => hne (List.argmax_eq_none.mp h)

/-- A cell has a delta iff it has valid checkpoints. -/
theorem isSome_cellDelta {A : Arithmetic} {cpu : Cpu} {cpuData : Dict Text (List ℤ)} {cfg : Text} :
    (A.cellDelta cpu cpuData cfg).isSome ↔
      ∃ checkpoints, cpuData.get? cfg = some checkpoints ∧ ∃ ts ∈ checkpoints, 0 < ts := by
  have hmetric : ((A.cpuCfgMetrics cpu cpuData).get? cfg).isSome ↔
      ∃ checkpoints, cpuData.get? cfg = some checkpoints ∧ ∃ ts ∈ checkpoints, 0 < ts := by
    rw [Arithmetic.cpuCfgMetrics, Dict.get?_filterMapValues]
    cases cpuData.get? cfg with
    | none =>
      refine iff_of_false Bool.false_ne_true ?_
      rintro ⟨_, h, -⟩
      cases h
    | some checkpoints => simp [isSome_metric]
  rw [← hmetric, Arithmetic.cellDelta]
  cases hv : (A.cpuCfgMetrics cpu cpuData).get? cfg with
  | none => simp
  | some v =>
    obtain ⟨b, hb⟩ := Option.isSome_iff_exists.mp (isSome_baselineOf cpu (Dict.get?_eq_some.mp hv))
    rw [hb]
    exact iff_of_true rfl rfl

/-! ### The rows of a benchmark -/

theorem map_range_eq {α β : Type*} {l : List α} {f : ℕ → β} {g : α → β}
    (h : ∀ j x, l[j]? = some x → f j = g x) : (List.range l.length).map f = l.map g := by
  refine List.ext_getElem (by simp) fun j hj hj' => ?_
  rw [List.getElem_map, List.getElem_map, List.getElem_range]
  exact h j _ (List.getElem?_eq_getElem (by simpa using hj))

theorem countP_range_eq {α : Type*} {l : List α} {f : ℕ → Bool} {g : α → Bool}
    (h : ∀ j x, l[j]? = some x → f j = g x) : (List.range l.length).countP f = l.countP g := by
  have hmap : (List.range l.length).map f = l.map g := map_range_eq h
  have hcount := congrArg (List.countP id) hmap
  rwa [List.countP_map, List.countP_map] at hcount

theorem isSome_mean {A : Arithmetic} {l : List (Option ℚ)} : (A.mean l).isSome ↔ ∃ d ∈ l, d.isSome := by
  have hnil : l.reduceOption = [] ↔ ¬ ∃ d ∈ l, d.isSome := by
    rw [List.eq_nil_iff_forall_not_mem]
    simp [List.reduceOption_mem_iff, Option.isSome_iff_exists]
  unfold Arithmetic.mean
  split
  · next h => exact iff_of_false Bool.false_ne_true (hnil.mp h)
  · next h => exact iff_of_true rfl (not_not.mp (mt hnil.mpr h))

theorem isSome_nanmax {l : List (Option ℚ)} {x : Option ℚ} (hx : x ∈ l) (h : x.isSome) :
    (nanmax l).isSome := by
  obtain ⟨v, rfl⟩ := Option.isSome_iff_exists.mp h
  have hmem : v ∈ l.reduceOption := List.mem_filterMap.mpr ⟨some v, hx, rfl⟩
  rw [nanmax, Option.isSome_iff_ne_none]
  exact fun hnone => List.ne_nil_of_mem hmem (List.max?_eq_none_iff.mp hnone)

/-- What a row says of its configuration. -/
structure RowFor (A : Arithmetic) (data : Data) (scope : Scope) (tau : Cpu → ℚ) (tolFactor : ℚ) (b cfg : Text)
    (r : Row) : Prop where
  mean_eq : r.meanD0 = meanDelta A data scope b cfg .cpu0
  worst_eq : r.worstMean = worstDelta A data scope b cfg
  rate_nonneg : 0 ≤ r.acceptRate
  rate_eq_zero : r.acceptRate = 0 ↔ ¬ Accepted A data scope tau tolFactor b cfg

section Bench

variable {A : Arithmetic} {data : Data} {scope : Scope} {tau : Cpu → ℚ} {tolFactor : ℚ} {b : Text}

theorem keys_selection (h : ∃ eb ∈ scope.cpu2Set, (b, scope.cpu1bench, eb) ∈ data.keys) :
    keys u data (scope.selection b) = .ok
      { cpu1bench := scope.cpu1bench
        embenchList := embenchsOf data scope b
        cfgList := orderCfgList u (cfgsOf data (keysInScope data (scope.selection b))) } := by
  obtain ⟨eb, heb, hkey⟩ := h
  refine keys_of_some rfl (List.ne_nil_of_mem (mem_keysInScope.mpr ⟨hkey, eb, heb, rfl⟩))

theorem isSome_scopeDelta {cfg : Text} {cpu : Cpu} {eb : Text}
    (h : (scopeDelta A data scope b cfg cpu eb).isSome) : (b, scope.cpu1bench, eb) ∈ data.keys := by
  obtain ⟨checkpoints, hget, -⟩ := isSome_cellDelta.mp h
  exact @mem_keys_of_cpuData _ _ cpu _ (Dict.mem_keys.mpr ⟨checkpoints, Dict.get?_eq_some.mp hget⟩)

theorem isSome_meanDelta {cfg : Text} :
    (meanDelta A data scope b cfg .cpu0).isSome ↔ Measured data scope b cfg := by
  rw [meanDelta, isSome_mean]
  constructor
  · rintro ⟨d, hd, hsome⟩
    obtain ⟨eb, heb, rfl⟩ := List.mem_map.mp hd
    exact ⟨eb, (mem_embenchsOf.mp heb).1, isSome_cellDelta.mp hsome⟩
  · rintro ⟨eb, heb, hcell⟩
    have hsome : (scopeDelta A data scope b cfg .cpu0 eb).isSome := isSome_cellDelta.mpr hcell
    exact ⟨_, List.mem_map_of_mem (mem_embenchsOf.mpr ⟨heb, isSome_scopeDelta hsome⟩), hsome⟩

theorem Accepted.measured {cfg : Text} (h : Accepted A data scope tau tolFactor b cfg) :
    Measured data scope b cfg := by
  obtain ⟨eb, heb, hall⟩ := h
  obtain ⟨d, hd, -⟩ := hall .cpu0
  exact ⟨eb, heb, isSome_cellDelta.mp (Option.isSome_iff_exists.mpr ⟨d, hd⟩)⟩

/-- The matrices of a selected benchmark, by its deltas. -/
theorem entries_selection (hscope : ∃ eb ∈ scope.cpu2Set, (b, scope.cpu1bench, eb) ∈ data.keys) {m : Matrices}
    (hm : A.buildMatrices u data (scope.selection b) tau tolFactor = .ok m) :
    m.embenchList = embenchsOf data scope b ∧
      m.cfgList = orderCfgList u (cfgsOf data (keysInScope data (scope.selection b))) ∧
      ∀ (i : ℕ) (cfg : Text), m.cfgList[i]? = some cfg → ∀ (cpu : Cpu) (j : ℕ) (eb : Text),
        m.embenchList[j]? = some eb →
        (m.deltaByCpu cpu).at i j = scopeDelta A data scope b cfg cpu eb ∧
          (m.classByCpu cpu).at i j =
            (scopeDelta A data scope b cfg cpu eb).map (A.classOf (tau cpu) tolFactor) := by
  obtain ⟨k, hk, hemb, hcfg, hentry⟩ := keys_of_buildMatrices hm
  obtain rfl := Except.ok.inj (hk.symm.trans (keys_selection hscope))
  exact ⟨hemb, hcfg, fun i cfg hi cpu j eb hj => hentry cpu i j cfg eb hi hj⟩

/-- All CPUs have a delta with the benchmark of CPU2. -/
def measuredAll (A : Arithmetic) (data : Data) (scope : Scope) (b cfg eb : Text) : Bool :=
  cpuSequence.all fun cpu => (scopeDelta A data scope b cfg cpu eb).isSome

/-- All CPUs have an acceptable one. -/
def acceptedAll (A : Arithmetic) (data : Data) (scope : Scope) (tau : Cpu → ℚ) (tolFactor : ℚ)
    (b cfg eb : Text) : Bool :=
  cpuSequence.all fun cpu => (scopeDelta A data scope b cfg cpu eb).any fun d => A.classOf (tau cpu) tolFactor d ≤ 1

theorem acceptedAll_iff {cfg eb : Text} : acceptedAll A data scope tau tolFactor b cfg eb ↔
    ∀ cpu, ∃ d, scopeDelta A data scope b cfg cpu eb = some d ∧ A.classOf (tau cpu) tolFactor d ≤ 1 := by
  simp [acceptedAll, mem_cpuSequence, Option.any_eq_true]

theorem measuredAll_of_acceptedAll {cfg eb : Text} (h : acceptedAll A data scope tau tolFactor b cfg eb) :
    measuredAll A data scope b cfg eb := by
  refine List.all_eq_true.mpr fun cpu _ => ?_
  obtain ⟨d, hd, -⟩ := acceptedAll_iff.mp h cpu
  rw [hd]
  rfl

theorem accepted_iff {cfg : Text} : Accepted A data scope tau tolFactor b cfg ↔
    ∃ eb ∈ embenchsOf data scope b, acceptedAll A data scope tau tolFactor b cfg eb := by
  constructor
  · rintro ⟨eb, heb, hall⟩
    obtain ⟨d, hd, -⟩ := hall .cpu0
    have hkey := isSome_scopeDelta (Option.isSome_iff_exists.mpr ⟨d, hd⟩)
    exact ⟨eb, mem_embenchsOf.mpr ⟨heb, hkey⟩, acceptedAll_iff.mpr hall⟩
  · rintro ⟨eb, heb, hall⟩
    exact ⟨eb, (mem_embenchsOf.mp heb).1, acceptedAll_iff.mp hall⟩

theorem rowFor_rankRow (hscope : ∃ eb ∈ scope.cpu2Set, (b, scope.cpu1bench, eb) ∈ data.keys) {m : Matrices}
    (hm : A.buildMatrices u data (scope.selection b) tau tolFactor = .ok m) {cfg : Text × ℕ}
    (hcfg : cfg ∈ m.cfgList.zipIdx) : RowFor A data scope tau tolFactor b cfg.1 (A.rankRow m b cfg) := by
  obtain ⟨hemb, -, hentry⟩ := entries_selection hscope hm
  have hentry := hentry cfg.2 cfg.1 (List.mem_zipIdx_iff_getElem?.mp hcfg)
  have hmean : ∀ cpu, A.mean ((List.range m.embenchList.length).map ((m.deltaByCpu cpu).at cfg.2)) =
      meanDelta A data scope b cfg.1 cpu := by
    intro cpu
    rw [map_range_eq fun j eb hj => (hentry cpu j eb hj).1, meanDelta, hemb]
  have htotal : (A.rankRow m b cfg).total = m.embenchList.countP (measuredAll A data scope b cfg.1) :=
    countP_range_eq fun j eb hj => by simp only [(hentry _ j eb hj).2, Option.isSome_map, measuredAll]
  have haccepted : (A.rankRow m b cfg).accepted =
      m.embenchList.countP (acceptedAll A data scope tau tolFactor b cfg.1) :=
    countP_range_eq fun j eb hj => by simp only [rankOk, (hentry _ j eb hj).2, Option.any_map, acceptedAll]
  have hle : (A.rankRow m b cfg).accepted ≤ (A.rankRow m b cfg).total := by
    rw [htotal, haccepted]
    exact List.countP_mono_left fun eb _ => measuredAll_of_acceptedAll
  have hnone : (A.rankRow m b cfg).accepted = 0 ↔ ¬ Accepted A data scope tau tolFactor b cfg.1 := by
    rw [haccepted, List.countP_eq_zero, accepted_iff, hemb, not_exists]
    exact forall_congr' fun eb => not_and.symm
  have hnonneg : 0 ≤ A.round (100 * ((A.rankRow m b cfg).accepted : ℚ)) := A.nonneg (by positivity)
  have hrate : (A.rankRow m b cfg).acceptRate = if (A.rankRow m b cfg).total = 0 then 0 else
      A.round (A.round (100 * ((A.rankRow m b cfg).accepted : ℚ)) / (A.rankRow m b cfg).total) := rfl
  refine ⟨hmean .cpu0, ?_, ?_, ?_⟩
  · have hmeans : cpuSequence.map (meanDelta A data scope b cfg.1) = cpuSequence.map fun cpu =>
        A.mean ((List.range m.embenchList.length).map ((m.deltaByCpu cpu).at cfg.2)) :=
      List.map_congr_left fun cpu _ => (hmean cpu).symm
    rw [worstDelta, hmeans]
    rfl
  · rw [hrate]
    split
    · exact le_refl 0
    · exact A.nonneg (div_nonneg hnonneg (Nat.cast_nonneg _))
  · rw [hrate, ← hnone]
    split
    · next hzero => exact iff_of_true rfl (Nat.le_zero.mp (hzero ▸ hle))
    · next hpos =>
      have hpos : ((A.rankRow m b cfg).total : ℚ) ≠ 0 := Nat.cast_ne_zero.mpr hpos
      rw [A.eq_zero_iff (div_nonneg hnonneg (Nat.cast_nonneg _)), div_eq_zero_iff, or_iff_left hpos,
        A.eq_zero_iff (by positivity)]
      simp

end Bench

/-! ### All rows -/

theorem mapM_except_eq {ε α β : Type*} {f : α → Except ε β} {g : α → β} : ∀ {l : List α},
    (∀ a ∈ l, f a = .ok (g a)) → l.mapM f = .ok (l.map g)
  | [], _ => rfl
  | a :: l, h => by
    rw [List.forall_mem_cons] at h
    rw [List.mapM_cons, h.1, mapM_except_eq h.2]
    rfl

theorem mem_detectConfigsInScope {data : Data} {scope : Scope} {cfg : Text} :
    cfg ∈ detectConfigsInScope u data scope ↔ ∃ b, HasData data scope b cfg := by
  simp only [detectConfigsInScope, mem_sortedSet, List.mem_flatMap, HasData]
  constructor
  · rintro ⟨⟨⟨b, c, eb⟩, perCpu⟩, hitem, hcfg⟩
    split at hcfg
    · next hin =>
      obtain ⟨cpu, -, hcfg⟩ := List.mem_flatMap.mp hcfg
      refine ⟨b, List.contains_iff_mem.mp hin.1, eb, hin.2.2, cpu, ?_⟩
      rw [cpuData, ← show c = scope.cpu1bench from hin.2.1, Dict.get?_eq_some.mpr hitem]
      exact hcfg
    · cases hcfg
  · rintro ⟨b, hb, eb, heb, cpu, hcfg⟩
    obtain ⟨perCpu, hitem⟩ := Dict.mem_keys.mp (mem_keys_of_cpuData hcfg)
    rw [cpuData, Dict.get?_eq_some.mpr hitem] at hcfg
    refine ⟨_, hitem, ?_⟩
    rw [if_pos ⟨List.contains_iff_mem.mpr hb, rfl, heb⟩]
    exact List.mem_flatMap.mpr ⟨cpu, mem_cpuSequence cpu, hcfg⟩

section Rows

variable {A : Arithmetic} {data : Data} {scope : Scope} (tau : Cpu → ℚ) (tolFactor : ℚ)

/-- The benchmark and the configuration of a row. -/
def Row.pair (r : Row) : Text × Text := (r.cpu0bench, r.cfg)

/-- The configurations with a row for a benchmark. -/
def pairsOf (u : UnicodeData) (data : Data) (scope : Scope) (b : Text) : List (Text × Text) :=
  (orderCfgList u (cfgsOf data (keysInScope data (scope.selection b)))).map (b, ·)

theorem exists_bench {b : Text} (hscope : ∃ eb ∈ scope.cpu2Set, (b, scope.cpu1bench, eb) ∈ data.keys) :
    ∃ rows : List Row, ((A.buildMatrices u data (scope.selection b) tau tolFactor).map fun m =>
        m.cfgList.zipIdx.map (A.rankRow m b)) = .ok rows ∧
      rows.map Row.pair = pairsOf u data scope b ∧
      ∀ r ∈ rows, RowFor A data scope tau tolFactor r.cpu0bench r.cfg r := by
  obtain ⟨m, hm⟩ : ∃ m, A.buildMatrices u data (scope.selection b) tau tolFactor = .ok m :=
    ⟨_, by rw [Arithmetic.buildMatrices, keys_selection hscope]; rfl⟩
  refine ⟨m.cfgList.zipIdx.map (A.rankRow m b), by rw [hm]; rfl, ?_, fun r hr => ?_⟩
  · have hpair : Row.pair ∘ A.rankRow m b = (b, ·) ∘ Prod.fst := rfl
    rw [List.map_map, hpair, ← List.map_map, List.zipIdx_map_fst, (entries_selection hscope hm).2.1, pairsOf]
  · obtain ⟨cfg, hcfg, rfl⟩ := List.mem_map.mp hr
    exact rowFor_rankRow hscope hm hcfg

theorem nodup_pairs (l : List Text) (hl : l.Nodup) : (l.flatMap (pairsOf u data scope)).Nodup := by
  rw [List.nodup_flatMap]
  constructor
  · intro b _
    exact (nodup_sortedSet _ _).map (Prod.mk_right_injective b)
  · refine hl.imp fun {b b'} hne => ?_
    intro p hp hp'
    obtain ⟨_, -, rfl⟩ := List.mem_map.mp hp
    obtain ⟨_, -, heq⟩ := List.mem_map.mp hp'
    exact hne (congrArg Prod.fst heq).symm

theorem mem_pairs {b cfg : Text} : (b, cfg) ∈ scope.cpu0List.flatMap (pairsOf u data scope) ↔
    HasData data scope b cfg := by
  simp only [List.mem_flatMap, pairsOf, List.mem_map, mem_cfgsOf, HasData]
  constructor
  · rintro ⟨b', hb, cfg', hdata, heq⟩
    cases heq
    exact ⟨hb, hdata⟩
  · rintro ⟨hb, hdata⟩
    exact ⟨b, hb, cfg, hdata, rfl⟩

/-- The rows that are sorted. -/
theorem exists_rows (hin : InScope data scope) :
    ∃ rows : List Row, (∀ sort, A.rankConfigsForAutotune u sort data scope tau tolFactor = .ok (sort keyLt rows)) ∧
      rows.map Row.pair = scope.cpu0List.flatMap (pairsOf u data scope) ∧
      ∀ r ∈ rows, RowFor A data scope tau tolFactor r.cpu0bench r.cfg r := by
  have hbench : ∀ b, ∃ rows : List Row, b ∈ scope.cpu0List →
      ((A.buildMatrices u data (scope.selection b) tau tolFactor).map fun m =>
        m.cfgList.zipIdx.map (A.rankRow m b)) = .ok rows ∧
      rows.map Row.pair = pairsOf u data scope b ∧
      ∀ r ∈ rows, RowFor A data scope tau tolFactor r.cpu0bench r.cfg r := by
    intro b
    by_cases hb : b ∈ scope.cpu0List
    · obtain ⟨rows, h⟩ := exists_bench tau tolFactor (hin b hb)
      exact ⟨rows, fun _ => h⟩
    · exact ⟨[], fun h => absurd h hb⟩
  choose rows hrows using hbench
  refine ⟨(scope.cpu0List.map rows).flatten, fun sort => ?_, ?_, fun r hr => ?_⟩
  · rw [Arithmetic.rankConfigsForAutotune, mapM_except_eq fun b hb => (hrows b hb).1]
    rfl
  · rw [List.map_flatten, List.map_map, List.flatMap]
    exact congrArg List.flatten (List.map_congr_left fun b hb => (hrows b hb).2.1)
  · obtain ⟨l, hl, hr⟩ := List.mem_flatten.mp hr
    obtain ⟨b, hb, rfl⟩ := List.mem_map.mp hl
    exact (hrows b hb).2.2 r hr

variable {tau tolFactor}

theorem RowFor.sound {r : Row} (h : RowFor A data scope tau tolFactor r.cpu0bench r.cfg r) : r.Sound where
  rate_nonneg := h.rate_nonneg
  rate_of_none hnone := by
    rw [h.rate_eq_zero]
    intro haccepted
    have hsome := (isSome_meanDelta (A := A)).mpr haccepted.measured
    rw [← h.mean_eq, hnone] at hsome
    cases hsome
  worst hsome := by
    rw [h.worst_eq]
    rw [h.mean_eq] at hsome
    exact isSome_nanmax (List.mem_map_of_mem (mem_cpuSequence .cpu0)) hsome

theorem RowFor.idle_iff {r : Row} (h : RowFor A data scope tau tolFactor r.cpu0bench r.cfg r)
    (hdata : HasData data scope r.cpu0bench r.cfg) :
    r.Idle ↔ Idle A data scope tau tolFactor r.cpu0bench r.cfg := by
  rw [Row.Idle, h.rate_eq_zero, h.mean_eq, isSome_meanDelta, Idle]
  exact ⟨fun hi => ⟨hdata, hi.2, hi.1⟩, fun hi => ⟨hi.2.2, hi.2.1⟩⟩

/-- The rows are settled iff the data in scope are. -/
theorem settled_iff {rows : List Row} (hpairs : rows.map Row.pair = scope.cpu0List.flatMap (pairsOf u data scope))
    (hrows : ∀ r ∈ rows, RowFor A data scope tau tolFactor r.cpu0bench r.cfg r) :
    Settled rows ↔ MeansTie A data scope tau tolFactor := by
  have hmem : ∀ r ∈ rows, HasData data scope r.cpu0bench r.cfg := fun r hr =>
    mem_pairs.mp (hpairs ▸ List.mem_map_of_mem (f := Row.pair) hr)
  have hex : ∀ b cfg, HasData data scope b cfg → ∃ r ∈ rows, r.cpu0bench = b ∧ r.cfg = cfg := by
    intro b cfg hdata
    rw [← mem_pairs, ← hpairs] at hdata
    obtain ⟨r, hr, heq⟩ := List.mem_map.mp hdata
    exact ⟨r, hr, congrArg Prod.fst heq, congrArg Prod.snd heq⟩
  have hall : ∀ P : Text → Text → Prop,
      (∀ r ∈ rows, P r.cpu0bench r.cfg) ↔ ∀ b cfg, HasData data scope b cfg → P b cfg := by
    refine fun P => ⟨fun h b cfg hdata => ?_, fun h r hr => h _ _ (hmem r hr)⟩
    obtain ⟨r, hr, rfl, rfl⟩ := hex b cfg hdata
    exact h r hr
  have hidle : ∀ P : Text → Text → Text → Text → Prop,
      (∀ r ∈ rows, ∀ s ∈ rows, r.Idle → s.Idle → P r.cpu0bench r.cfg s.cpu0bench s.cfg) ↔
        ∀ b cfg b' cfg', Idle A data scope tau tolFactor b cfg → Idle A data scope tau tolFactor b' cfg' →
          P b cfg b' cfg' := by
    intro P
    constructor
    · intro h b cfg b' cfg' hi hi'
      obtain ⟨r, hr, rfl, rfl⟩ := hex b cfg hi.1
      obtain ⟨s, hs, rfl, rfl⟩ := hex b' cfg' hi'.1
      exact h r hr s hs (((hrows r hr).idle_iff (hmem r hr)).mpr hi) (((hrows s hs).idle_iff (hmem s hs)).mpr hi')
    · intro h r hr s hs hir his
      exact h _ _ _ _ (((hrows r hr).idle_iff (hmem r hr)).mp hir) (((hrows s hs).idle_iff (hmem s hs)).mp his)
  have hmeasured : (∀ r ∈ rows, r.meanD0.isSome) ↔
      ∀ r ∈ rows, Measured data scope r.cpu0bench r.cfg :=
    forall₂_congr fun r hr => by rw [(hrows r hr).mean_eq, isSome_meanDelta]
  have hmeans : (∀ r ∈ rows, ∀ s ∈ rows, r.Idle → s.Idle →
        r.meanD0 = s.meanD0 ∧ r.worstMean = s.worstMean) ↔
      ∀ r ∈ rows, ∀ s ∈ rows, r.Idle → s.Idle →
        meanDelta A data scope r.cpu0bench r.cfg .cpu0 = meanDelta A data scope s.cpu0bench s.cfg .cpu0 ∧
          worstDelta A data scope r.cpu0bench r.cfg = worstDelta A data scope s.cpu0bench s.cfg :=
    forall₂_congr fun r hr => forall₂_congr fun s hs => by
      rw [(hrows r hr).mean_eq, (hrows s hs).mean_eq, (hrows r hr).worst_eq, (hrows s hs).worst_eq]
  have hzero : (∀ r ∈ rows, r.acceptRate = 0) ↔
      ∀ r ∈ rows, ¬ Accepted A data scope tau tolFactor r.cpu0bench r.cfg :=
    forall₂_congr fun r hr => (hrows r hr).rate_eq_zero
  rw [Settled, MeansTie, hmeasured, hmeans, hzero, hall (Measured data scope),
    hall fun b cfg => ¬ Accepted A data scope tau tolFactor b cfg,
    hidle fun b cfg b' cfg' => meanDelta A data scope b cfg .cpu0 = meanDelta A data scope b' cfg' .cpu0 ∧
      worstDelta A data scope b cfg = worstDelta A data scope b' cfg',
    hidle fun _ cfg _ cfg' => cfg = cfg']

end Rows

/-- What is in scope is ranked by every stable sort, one row for each benchmark
and configuration with data and the rows in the order of the objectives, iff
the means tie where a row has none. The rows are there in any case. -/
theorem ranked_iff_meansTie {A : Arithmetic} {data : Data} {scope : Scope} (hin : InScope data scope)
    (tau : Cpu → ℚ) (tolFactor : ℚ) :
    (∀ sort, IsStableSort sort → ∃ rows, A.rankConfigsForAutotune u sort data scope tau tolFactor = .ok rows ∧
      Ranked u data scope rows) ↔ MeansTie A data scope tau tolFactor := by
  obtain ⟨rows, hrank, hpairs, hrows⟩ := exists_rows tau tolFactor hin
  rw [← settled_iff hpairs hrows, ← sorts_respect_objectives_iff fun r hr => (hrows r hr).sound]
  refine forall₂_congr fun sort hsort => ?_
  have hperm := hsort.perm keyLt rows
  have hmap : ((sort keyLt rows).map Row.pair).Perm (scope.cpu0List.flatMap (pairsOf u data scope)) :=
    hpairs ▸ hperm.map Row.pair
  rw [hrank]
  constructor
  · rintro ⟨_, heq, h⟩
    obtain rfl := Except.ok.inj heq
    exact h.ordered
  · refine fun hordered => ⟨_, rfl, hmap.nodup_iff.mpr (nodup_pairs _ scope.nodup), ?_, ?_, hordered⟩
    · exact fun b cfg => hmap.mem_iff.trans mem_pairs
    · intro cfg
      rw [mem_detectConfigsInScope]
      constructor
      · intro hcfg
        obtain ⟨r, hr, rfl⟩ := List.mem_map.mp hcfg
        exact ⟨r.cpu0bench, mem_pairs.mp (hmap.mem_iff.mp (List.mem_map_of_mem (f := Row.pair) hr))⟩
      · rintro ⟨b, hdata⟩
        obtain ⟨r, hr, heq⟩ := List.mem_map.mp (hmap.mem_iff.mpr (mem_pairs.mpr hdata))
        exact List.mem_map.mpr ⟨r, hr, congrArg Prod.snd heq⟩

end Tuner
end DaatMcs
