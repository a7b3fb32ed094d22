/-
# What the ranking depends on

Everything the tuner computes goes through the deltas of the cells. Those
depend on the data as a mapping only, so where the files of a slot agree the
matrices and the ranking are the same for every listing of the directories
(`ranking_relisted`). Wider tolerances change no delta and lower no rate
(`rates_mono`), and a configuration that is nowhere better than the baseline
changes no row but its own (`rows_add`).
-/
import DaatMcs.Tuner.Loading
import DaatMcs.Tuner.Rankable

namespace DaatMcs
namespace Tuner

variable {A : Arithmetic} {u : UnicodeData}

/-! ### Sorted sets -/

theorem sortedSet_congr {κ : Type*} [LinearOrder κ] {key : Text → κ} (hkey : Function.Injective key)
    {l l' : List Text} (h : ∀ a, a ∈ l ↔ a ∈ l') : sortedSet key l = sortedSet key l' := by
  have htotal : Std.Total fun a b => key a ≤ key b := ⟨fun a b => le_total (key a) (key b)⟩
  have htrans : IsTrans Text fun a b => key a ≤ key b := ⟨fun a b c => le_trans⟩
  have hperm : (sortedSet key l).Perm (sortedSet key l') :=
    (List.perm_ext_iff_of_nodup (nodup_sortedSet key l) (nodup_sortedSet key l')).mpr fun a => by
      rw [mem_sortedSet, mem_sortedSet, h]
  exact hperm.eq_of_pairwise (fun a b _ _ hab hba => hkey (le_antisymm hab hba))
    (List.pairwise_insertionSort _ _) (List.pairwise_insertionSort _ _)

theorem cfgSortKey_injective : Function.Injective (cfgSortKey u) := by
  have hlast : ∀ cfg, (ofLex (ofLex (cfgSortKey u cfg)).2).2 = cfg := fun cfg => by
    unfold cfgSortKey
    split
    · rfl
    · split <;> rfl
  intro cfg cfg' h
  rw [← hlast cfg, h, hlast]

/-! ### Cells -/

/-- A cell's delta depends on the best metric and on its own. -/
theorem cellDelta_of_best {cpu : Cpu} {cpuData : Dict Text (List ℤ)} {b : Text × ℚ}
    (h : Best cpu (A.cpuCfgMetrics cpu cpuData) b) (cfg : Text) :
    A.cellDelta cpu cpuData cfg = ((A.cpuCfgMetrics cpu cpuData).get? cfg).map (A.deltaOf cpu b.2) := by
  obtain ⟨x, hx⟩ := exists_baselineOf cpu (List.ne_nil_of_mem h.1)
  rw [Arithmetic.cellDelta, hx, Option.bind_some, (best_baselineOf hx).unique h]

theorem cellDelta_eq_none {cpu : Cpu} {cpuData : Dict Text (List ℤ)} {cfg : Text}
    (h : (A.cpuCfgMetrics cpu cpuData).get? cfg = none) : A.cellDelta cpu cpuData cfg = none := by
  rw [Arithmetic.cellDelta, h]
  cases baselineOf cpu (A.cpuCfgMetrics cpu cpuData) <;> rfl

/-- Another cell with the same best metric has the same deltas where it has the
same metrics. -/
theorem cellDelta_congr {cpu : Cpu} {d d' : Dict Text (List ℤ)} {cfg : Text} (hcfg : d.get? cfg = d'.get? cfg)
    (hbest : ∀ b, Best cpu (A.cpuCfgMetrics cpu d) b → Best cpu (A.cpuCfgMetrics cpu d') b) :
    A.cellDelta cpu d cfg = A.cellDelta cpu d' cfg := by
  have hmetric : (A.cpuCfgMetrics cpu d).get? cfg = (A.cpuCfgMetrics cpu d').get? cfg := by
    rw [Arithmetic.cpuCfgMetrics, Arithmetic.cpuCfgMetrics, Dict.get?_filterMapValues,
      Dict.get?_filterMapValues, hcfg]
  cases hv : (A.cpuCfgMetrics cpu d).get? cfg with
  | none => rw [cellDelta_eq_none hv, cellDelta_eq_none (hmetric.symm.trans hv)]
  | some v =>
    obtain ⟨b, hb⟩ := exists_baselineOf cpu (List.ne_nil_of_mem (Dict.get?_eq_some.mp hv))
    have hb := best_baselineOf hb
    rw [cellDelta_of_best hb, cellDelta_of_best (hbest b hb), hmetric]

/-! ### Equal data -/

theorem Dict.mem_keys_iff_isSome {κ υ : Type*} [DecidableEq κ] {d : Dict κ υ} {k : κ} :
    k ∈ d.keys ↔ (d.get? k).isSome := by
  rw [Dict.mem_keys, Option.isSome_iff_exists]
  exact exists_congr fun v => Dict.get?_eq_some.symm

section Same

variable {data data' : Data}

theorem Data.Same.get?_eq (h : Data.Same data data') (key : Key) (cpu : Cpu) (cfg : Text) :
    (cpuData data key cpu).get? cfg = (cpuData data' key cpu).get? cfg := by
  have hkey := h key
  unfold cpuData
  generalize data.get? key = o at hkey
  generalize data'.get? key = o' at hkey
  cases hkey with
  | none => rfl
  | @some d d' hd =>
    have hcpu := hd cpu.name
    simp only [Option.bind_some]
    generalize d.get? cpu.name = o at hcpu
    generalize d'.get? cpu.name = o' at hcpu
    cases hcpu with
    | none => rfl
    | some hc => exact rel_eq_iff.mp (hc cfg)

theorem Data.Same.mem_keys (h : Data.Same data data') (key : Key) : key ∈ data.keys ↔ key ∈ data'.keys := by
  rw [Dict.mem_keys_iff_isSome, Dict.mem_keys_iff_isSome]
  have hkey := h key
  generalize data.get? key = o at hkey
  generalize data'.get? key = o' at hkey
  cases hkey <;> rfl

theorem Data.Same.cellDelta_eq (h : Data.Same data data') (key : Key) (cpu : Cpu) (cfg : Text) :
    A.cellDelta cpu (cpuData data key cpu) cfg = A.cellDelta cpu (cpuData data' key cpu) cfg := by
  have hmetrics : ∀ e, e ∈ (A.cpuCfgMetrics cpu (cpuData data key cpu)).items ↔
      e ∈ (A.cpuCfgMetrics cpu (cpuData data' key cpu)).items := by
    rintro ⟨cfg, v⟩
    rw [← Dict.get?_eq_some, ← Dict.get?_eq_some, Arithmetic.cpuCfgMetrics, Arithmetic.cpuCfgMetrics,
      Dict.get?_filterMapValues, Dict.get?_filterMapValues, h.get?_eq]
  exact cellDelta_congr (h.get?_eq key cpu cfg) fun b hb =>
    ⟨(hmetrics b).mp hb.1, fun e he => hb.2 e ((hmetrics e).mpr he)⟩

theorem Data.Same.keys_eq (h : Data.Same data data') (sel : Selection) : keys u data sel = keys u data' sel := by
  have hscope : ∀ key, key ∈ keysInScope data sel ↔ key ∈ keysInScope data' sel := fun key => by
    rw [keysInScope, keysInScope, List.mem_filter, List.mem_filter, h.mem_keys]
  have hnil : keysInScope data sel = [] ↔ keysInScope data' sel = [] := by
    simp only [List.eq_nil_iff_forall_not_mem, hscope]
  have hproj : ∀ f : Key → Text, sortedSet id ((keysInScope data sel).map f) =
      sortedSet id ((keysInScope data' sel).map f) := fun f =>
    sortedSet_congr Function.injective_id fun a => by simp only [List.mem_map, hscope]
  have hcfgs : orderCfgList u (cfgsOf data (keysInScope data sel)) =
      orderCfgList u (cfgsOf data' (keysInScope data' sel)) :=
    sortedSet_congr cfgSortKey_injective fun a => by
      simp only [cfgsOf, List.mem_flatMap, hscope, Dict.mem_keys_iff_isSome, h.get?_eq]
  simp only [keys, hnil, hproj, hcfgs]

/-- The matrices of equal data are equal. -/
theorem Data.Same.buildMatrices_eq (h : Data.Same data data') (sel : Selection) (tau : Cpu → ℚ) (tolFactor : ℚ) :
    A.buildMatrices u data sel tau tolFactor = A.buildMatrices u data' sel tau tolFactor := by
  have hdelta : ∀ (key : Key) (cpu : Cpu) (cfg : Text),
      ((A.columnOf data key tau tolFactor cpu).bind fun m => m.delta.get? cfg) =
        (A.columnOf data' key tau tolFactor cpu).bind fun m => m.delta.get? cfg := fun key cpu cfg => by
    rw [Arithmetic.columnOf, Arithmetic.columnOf, delta_get?, delta_get?, h.cellDelta_eq]
  have hklass : ∀ (key : Key) (cpu : Cpu) (cfg : Text),
      ((A.columnOf data key tau tolFactor cpu).bind fun m => m.klass.get? cfg) =
        (A.columnOf data' key tau tolFactor cpu).bind fun m => m.klass.get? cfg := fun key cpu cfg => by
    rw [Arithmetic.columnOf, Arithmetic.columnOf, klass_get?, klass_get?, h.cellDelta_eq]
  simp only [Arithmetic.buildMatrices, h.keys_eq, hdelta, hklass]

/-- So are the rankings, by whatever sort. -/
theorem Data.Same.ranking_eq (h : Data.Same data data') (sort : (Row → Row → Bool) → List Row → List Row)
    (scope : Scope) (tau : Cpu → ℚ) (tolFactor : ℚ) :
    A.rankConfigsForAutotune u sort data scope tau tolFactor =
      A.rankConfigsForAutotune u sort data' scope tau tolFactor := by
  simp only [Arithmetic.rankConfigsForAutotune, h.buildMatrices_eq]

theorem Data.Same.detect_eq (h : Data.Same data data') (scope : Scope) :
    detectConfigsInScope u data scope = detectConfigsInScope u data' scope := by
  refine sortedSet_congr cfgSortKey_injective fun cfg => ?_
  have hdata : ∀ b, HasData data scope b cfg ↔ HasData data' scope b cfg := fun b => by
    simp only [HasData, Dict.mem_keys_iff_isSome, h.get?_eq]
  exact (mem_sortedSet.symm.trans (mem_detectConfigsInScope (u := u))).trans
    ((exists_congr hdata).trans ((mem_detectConfigsInScope (u := u)).symm.trans mem_sortedSet))

end Same

/-- **The listing does not matter to the results**: where the files of a slot
that no later directory overwrites agree, the matrices of every selection,
the configurations detected and the ranking are the same for every listing of
the directories, or there are none for any. -/
theorem ranking_relisted (u : UnicodeData) {dirs dirs' : List (Option Listing)}
    (hagree : GroupsAgree (checkpointsFor u) (filesOf dirs)) (hre : Relisted dirs dirs')
    (sort : (Row → Row → Bool) → List Row → List Row) (scope : Scope) (sel : Selection) (tau : Cpu → ℚ)
    (tolFactor : ℚ) :
    ((loadAllFiles u dirs).map fun data => (A.buildMatrices u data sel tau tolFactor,
        detectConfigsInScope u data scope, A.rankConfigsForAutotune u sort data scope tau tolFactor)) =
      (loadAllFiles u dirs').map fun data => (A.buildMatrices u data sel tau tolFactor,
        detectConfigsInScope u data scope, A.rankConfigsForAutotune u sort data scope tau tolFactor) := by
  have hsame : Option.Rel Data.Same (loadAllFiles u dirs) (loadAllFiles u dirs') := by
    by_cases hread : Readable u dirs
    · exact hread.orderFree.mpr hagree dirs' hre
    · have hno : loadAllFiles u dirs = none := Option.not_isSome_iff_eq_none.mp (mt isSome_loadAllFiles.mp hread)
      have hno' : loadAllFiles u dirs' = none :=
        Option.not_isSome_iff_eq_none.mp fun h => hread ((isSome_loadAllFiles.mp h).relisted hre.symm)
      rw [hno, hno']
      exact .none
  generalize loadAllFiles u dirs = o at hsame
  generalize loadAllFiles u dirs' = o' at hsame
  cases hsame with
  | none => rfl
  | some h => simp only [Option.map_some, h.buildMatrices_eq, h.detect_eq, h.ranking_eq]

def fftPlain : Text × Text :=
  ("linux_fft_baremetal_cache_w_baremetal_embench_crc32-C1_profile_0.txt".toList, "CPU0 checkpoints:\n4000\n".toList)

def fftColoured : Text × Text :=
  ("linux_fft_baremetal_cache_w_baremetal_embench_crc32-C1_profile_0_cc_2_4_2-8.txt".toList,
    "CPU0 checkpoints:\n2000\n".toList)

/-- The files of two configurations. -/
def fftFiles : List (Text × Text) := [fftPlain, fftColoured]

theorem agree_fftFiles (slot : Slot) : DaatMcs.Agree (checkpointsFor asciiData) fftFiles slot := by
  have hplain : parseFilename asciiData fftPlain.1 = some (fftKey.1, fftKey.2.1, fftKey.2.2, none) := by
    decide +kernel
  have hcoloured : parseFilename asciiData fftColoured.1 =
      some (fftKey.1, fftKey.2.1, fftKey.2.2, some "2_4_2-8".toList) := by decide +kernel
  have hcfg : cfgOf none ≠ cfgOf (some "2_4_2-8".toList) := by decide
  -- a file writes to the slots of its configuration only
  have hslot : ∀ {f : Text × Text} {tag : Option Text} {v : List ℤ},
      parseFilename asciiData f.1 = some (fftKey.1, fftKey.2.1, fftKey.2.2, tag) →
        checkpointsFor asciiData f slot = some v → cfgOf tag = slot.cfg := by
    intro f tag v hparse hv
    simp only [checkpointsFor, hparse] at hv
    split at hv
    · next h => exact h.2
    · cases hv
  intro f hf f' hf' v v' hv hv'
  simp only [fftFiles, List.mem_cons, List.not_mem_nil, or_false] at hf hf'
  rcases hf with rfl | rfl <;> rcases hf' with rfl | rfl
  · exact Option.some.inj (hv.symm.trans hv')
  · exact absurd ((hslot hplain hv).trans (hslot hcoloured hv').symm) hcfg
  · exact absurd ((hslot hplain hv').trans (hslot hcoloured hv).symm) hcfg
  · exact Option.some.inj (hv.symm.trans hv')

theorem ranking_relisted_fft :
    ∃ h h', ((loadAllFiles asciiData [some ⟨fftFiles, h⟩]).map fun data =>
        (rationals.buildMatrices asciiData data (fftScope.selection fftKey.1) (fun _ => 10) (3 / 2),
          detectConfigsInScope asciiData data fftScope,
          rationals.rankConfigsForAutotune asciiData insertionSortBy data fftScope (fun _ => 10) (3 / 2))) =
      (loadAllFiles asciiData [some ⟨fftFiles.reverse, h'⟩]).map fun data =>
        (rationals.buildMatrices asciiData data (fftScope.selection fftKey.1) (fun _ => 10) (3 / 2),
          detectConfigsInScope asciiData data fftScope,
          rationals.rankConfigsForAutotune asciiData insertionSortBy data fftScope (fun _ => 10) (3 / 2)) := by
  have hnodup : (fftFiles.map Prod.fst).Nodup := by decide +kernel
  have hnodup' : (fftFiles.reverse.map Prod.fst).Nodup := by decide +kernel
  have hagree : GroupsAgree (checkpointsFor asciiData) (filesOf [some ⟨fftFiles, hnodup⟩]) := by
    intro pre g post hsplit slot _
    obtain ⟨-, hg⟩ | ⟨-, hg⟩ := List.append_eq_singleton_iff.mp hsplit.symm
    · rw [(List.cons.inj hg).1]
      exact agree_fftFiles slot
    · cases hg
  have hre : Relisted [some ⟨fftFiles, hnodup⟩] [some ⟨fftFiles.reverse, hnodup'⟩] :=
    .cons (.some (List.reverse_perm _).symm) .nil
  exact ⟨hnodup, hnodup', ranking_relisted asciiData hagree hre ..⟩

/-! ### Rows from deltas -/

/-- The row of a benchmark and a configuration, from the deltas in scope. -/
def rowOf (A : Arithmetic) (data : Data) (scope : Scope) (tau : Cpu → ℚ) (tolFactor : ℚ) (p : Text × Text) : Row :=
  let total := (embenchsOf data scope p.1).countP (measuredAll A data scope p.1 p.2)
  let accepted := (embenchsOf data scope p.1).countP (acceptedAll A data scope tau tolFactor p.1 p.2)
  { cpu0bench := p.1
    cfg := p.2
    cfgLabel := cfgLabel p.2
    acceptRate := if total = 0 then 0 else A.round (A.round (100 * accepted) / total)
    meanD0 := meanDelta A data scope p.1 p.2 .cpu0
    meanD1 := meanDelta A data scope p.1 p.2 .cpu1
    meanD2 := meanDelta A data scope p.1 p.2 .cpu2
    worstMean := worstDelta A data scope p.1 p.2
    total := total
    accepted := accepted }

section Rows

variable {data : Data} {scope : Scope} {tau : Cpu → ℚ} {tolFactor : ℚ}

theorem rankRow_eq {b : Text} (hscope : ∃ eb ∈ scope.cpu2Set, (b, scope.cpu1bench, eb) ∈ data.keys) {m : Matrices}
    (hm : A.buildMatrices u data (scope.selection b) tau tolFactor = .ok m) {cfg : Text × ℕ}
    (hcfg : cfg ∈ m.cfgList.zipIdx) : A.rankRow m b cfg = rowOf A data scope tau tolFactor (b, cfg.1) := by
  obtain ⟨hemb, -, hentry⟩ := entries_selection hscope hm
  have hentry := hentry cfg.2 cfg.1 (List.mem_zipIdx_iff_getElem?.mp hcfg)
  have hmean : ∀ cpu, A.mean ((List.range m.embenchList.length).map ((m.deltaByCpu cpu).at cfg.2)) =
      meanDelta A data scope b cfg.1 cpu := by
    intro cpu
    rw [map_range_eq fun j eb hj => (hentry cpu j eb hj).1, meanDelta, hemb]
  have htotal : ((List.range m.embenchList.length).countP fun j =>
      cpuSequence.all fun cpu => ((m.classByCpu cpu).at cfg.2 j).isSome) =
      (embenchsOf data scope b).countP (measuredAll A data scope b cfg.1) := by
    rw [← hemb]
    exact countP_range_eq fun j eb hj => by simp only [(hentry _ j eb hj).2, Option.isSome_map, measuredAll]
  have haccepted : ((List.range m.embenchList.length).countP fun j => rankOk m cfg.2 j) =
      (embenchsOf data scope b).countP (acceptedAll A data scope tau tolFactor b cfg.1) := by
    rw [← hemb]
    exact countP_range_eq fun j eb hj => by simp only [rankOk, (hentry _ j eb hj).2, Option.any_map, acceptedAll]
  have hworst : worstDelta A data scope b cfg.1 = nanmax [meanDelta A data scope b cfg.1 .cpu0,
      meanDelta A data scope b cfg.1 .cpu1, meanDelta A data scope b cfg.1 .cpu2] := rfl
  simp only [Arithmetic.rankRow, rowOf, hmean, htotal, haccepted, hworst]

/-- The ranking sorts one row for each pair that has data. -/
theorem rankConfigs_eq (hin : InScope data scope) (sort : (Row → Row → Bool) → List Row → List Row) :
    A.rankConfigsForAutotune u sort data scope tau tolFactor =
      .ok (sort keyLt ((scope.cpu0List.flatMap (pairsOf u data scope)).map (rowOf A data scope tau tolFactor))) := by
  have hbench : ∀ b ∈ scope.cpu0List, ((A.buildMatrices u data (scope.selection b) tau tolFactor).map fun m =>
      m.cfgList.zipIdx.map (A.rankRow m b)) =
        .ok ((pairsOf u data scope b).map (rowOf A data scope tau tolFactor)) := by
    intro b hb
    obtain ⟨m, hm⟩ : ∃ m, A.buildMatrices u data (scope.selection b) tau tolFactor = .ok m :=
      ⟨_, by rw [Arithmetic.buildMatrices, keys_selection (hin b hb)]; rfl⟩
    have hrows : m.cfgList.zipIdx.map (A.rankRow m b) =
        m.cfgList.zipIdx.map fun cfg => rowOf A data scope tau tolFactor (b, cfg.1) :=
      List.map_congr_left fun cfg hcfg => rankRow_eq (hin b hb) hm hcfg
    have hfst : (fun cfg : Text × ℕ => rowOf A data scope tau tolFactor (b, cfg.1)) =
        (rowOf A data scope tau tolFactor ∘ (b, ·)) ∘ Prod.fst := rfl
    rw [hm, Except.map, hrows, hfst, ← List.map_map, List.zipIdx_map_fst, ← List.map_map,
      (entries_selection (hin b hb) hm).2.1, pairsOf]
  rw [Arithmetic.rankConfigsForAutotune, mapM_except_eq hbench, List.map_flatMap, List.flatMap]
  rfl

/-- What is in a ranking, whatever the sort: it is a permutation. -/
theorem mem_ranking (hin : InScope data scope) {sort : (Row → Row → Bool) → List Row → List Row}
    (hsort : IsStableSort sort) {rows : List Row}
    (hrows : A.rankConfigsForAutotune u sort data scope tau tolFactor = .ok rows) {r : Row} :
    r ∈ rows ↔ HasData data scope r.cpu0bench r.cfg ∧ r = rowOf A data scope tau tolFactor (r.cpu0bench, r.cfg) := by
  rw [rankConfigs_eq hin] at hrows
  rw [← Except.ok.inj hrows, (hsort.perm _ _).mem_iff, List.mem_map, ← mem_pairs]
  constructor
  · rintro ⟨p, hp, rfl⟩
    exact ⟨hp, rfl⟩
  · rintro ⟨hp, hr⟩
    exact ⟨_, hp, hr.symm⟩

end Rows

/-! ### Wider tolerances -/

theorem classOf_le_one_mono {tau tau' tolFactor tolFactor' d : ℚ} (htau : tau ≤ tau')
    (hfactor : tolFactor * tau ≤ tolFactor' * tau') (h : A.classOf tau tolFactor d ≤ 1) :
    A.classOf tau' tolFactor' d ≤ 1 := by
  rw [classOf_le_one_iff] at h ⊢
  exact h.imp htau.trans' (A.mono hfactor).trans'

theorem rowOf_mono {data : Data} {scope : Scope} {tau tau' : Cpu → ℚ} {tolFactor tolFactor' : ℚ}
    (htau : ∀ cpu, tau cpu ≤ tau' cpu) (hfactor : ∀ cpu, tolFactor * tau cpu ≤ tolFactor' * tau' cpu)
    (p : Text × Text) :
    (rowOf A data scope tau tolFactor p).accepted ≤ (rowOf A data scope tau' tolFactor' p).accepted ∧
      (rowOf A data scope tau tolFactor p).acceptRate ≤ (rowOf A data scope tau' tolFactor' p).acceptRate := by
  have hle : (rowOf A data scope tau tolFactor p).accepted ≤ (rowOf A data scope tau' tolFactor' p).accepted := by
    refine List.countP_mono_left fun eb _ haccepted => acceptedAll_iff.mpr fun cpu => ?_
    obtain ⟨d, hd, hclass⟩ := acceptedAll_iff.mp haccepted cpu
    exact ⟨d, hd, classOf_le_one_mono (htau cpu) (hfactor cpu) hclass⟩
  refine ⟨hle, ?_⟩
  have hrate : ∀ tau tolFactor, (rowOf A data scope tau tolFactor p).acceptRate =
      if (rowOf A data scope tau tolFactor p).total = 0 then 0 else
        A.round (A.round (100 * ((rowOf A data scope tau tolFactor p).accepted : ℚ)) /
          (rowOf A data scope tau tolFactor p).total) :=
    fun _ _ => rfl
  have htotal : (rowOf A data scope tau' tolFactor' p).total = (rowOf A data scope tau tolFactor p).total := rfl
  rw [hrate, hrate, htotal]
  split
  · exact le_refl 0
  · have hcast : ((rowOf A data scope tau tolFactor p).accepted : ℚ) ≤
        (rowOf A data scope tau' tolFactor' p).accepted := Nat.cast_le.mpr hle
    exact A.mono (div_le_div_of_nonneg_right (A.mono (by linarith)) (Nat.cast_nonneg _))

/-- **Wider tolerances never lower a rate**: the row of a benchmark and a
configuration keeps its deltas and its total, and no fewer of its cells are
accepted. -/
theorem rates_mono {data : Data} {scope : Scope} (hin : InScope data scope)
    {sort : (Row → Row → Bool) → List Row → List Row} (hsort : IsStableSort sort) {tau tau' : Cpu → ℚ}
    {tolFactor tolFactor' : ℚ} (htau : ∀ cpu, tau cpu ≤ tau' cpu)
    (hfactor : ∀ cpu, tolFactor * tau cpu ≤ tolFactor' * tau' cpu) {rows rows' : List Row}
    (hrows : A.rankConfigsForAutotune u sort data scope tau tolFactor = .ok rows)
    (hrows' : A.rankConfigsForAutotune u sort data scope tau' tolFactor' = .ok rows') {r : Row} (hr : r ∈ rows) :
    ∃ r' ∈ rows', r = { r' with acceptRate := r.acceptRate, accepted := r.accepted } ∧
      r.accepted ≤ r'.accepted ∧ r.acceptRate ≤ r'.acceptRate := by
  obtain ⟨p, hdata, rfl⟩ : ∃ p : Text × Text, HasData data scope p.1 p.2 ∧ r = rowOf A data scope tau tolFactor p :=
    ⟨(r.cpu0bench, r.cfg), (mem_ranking hin hsort hrows).mp hr⟩
  obtain ⟨haccepted, hrate⟩ := @rowOf_mono A data scope _ _ _ _ htau hfactor p
  exact ⟨rowOf A data scope tau' tolFactor' p, (mem_ranking hin hsort hrows').mpr ⟨hdata, rfl⟩, rfl, haccepted, hrate⟩

/-- Checkpoints of all CPUs for the two configurations. -/
def fftDataAll : Data :=
  .ofList [(fftKey, .ofList [(Cpu.cpu0.name, fftRuns), (Cpu.cpu1.name, fftRuns), (Cpu.cpu2.name, fftRuns)])]

theorem fftAll_inScope : InScope fftDataAll fftScope := fun b hb => by
  obtain rfl := List.mem_singleton.mp hb
  exact ⟨fftKey.2.2, by decide +kernel, by decide +kernel⟩

/-- The slower configuration is accepted with the wider tolerance only. -/
theorem rates_mono_fft : ∃ rows rows',
    rationals.rankConfigsForAutotune asciiData insertionSortBy fftDataAll fftScope (fun _ => 10) (3 / 2) = .ok rows ∧
    rationals.rankConfigsForAutotune asciiData insertionSortBy fftDataAll fftScope (fun _ => 80) (3 / 2) = .ok rows' ∧
    rows.map (fun r => (r.cfg, r.acceptRate)) = [("2_4_2-8".toList, 100), (interf, 0)] ∧
    rows'.map (fun r => (r.cfg, r.acceptRate)) = [("2_4_2-8".toList, 100), (interf, 100)] ∧
    ∀ r ∈ rows, ∃ r' ∈ rows', r.acceptRate ≤ r'.acceptRate := by
  have htau : ∀ cpu : Cpu, (fun _ => 10 : Cpu → ℚ) cpu ≤ (fun _ => 80 : Cpu → ℚ) cpu := fun _ => by norm_num
  have hfactor : ∀ cpu : Cpu, (3 / 2 : ℚ) * (fun _ => 10 : Cpu → ℚ) cpu ≤ 3 / 2 * (fun _ => 80 : Cpu → ℚ) cpu :=
    fun _ => by norm_num
  refine ⟨_, _, rankConfigs_eq fftAll_inScope _, rankConfigs_eq fftAll_inScope _, by decide +kernel,
    by decide +kernel, fun r hr => ?_⟩
  obtain ⟨r', hr', -, -, hrate⟩ := rates_mono fftAll_inScope isStableSort_insertionSortBy htau hfactor
    (rankConfigs_eq fftAll_inScope _) (rankConfigs_eq fftAll_inScope _) hr
  exact ⟨r', hr', hrate⟩

/-! ### A configuration more -/

/-- The data with a new configuration that is nowhere better than the baseline. -/
structure Added (A : Arithmetic) (data data' : Data) (cfg₀ : Text) : Prop where
  keys : ∀ key, key ∈ data'.keys ↔ key ∈ data.keys
  others : ∀ key cpu cfg, cfg ≠ cfg₀ → (cpuData data' key cpu).get? cfg = (cpuData data key cpu).get? cfg
  new : ∀ key cpu, (cpuData data key cpu).get? cfg₀ = none
  worse : ∀ key cpu b v, Best cpu (A.cpuCfgMetrics cpu (cpuData data key cpu)) b →
    (A.cpuCfgMetrics cpu (cpuData data' key cpu)).get? cfg₀ = some v → NoWorse cpu b.2 v

section Add

variable {data data' : Data} {cfg₀ : Text} {scope : Scope} {tau : Cpu → ℚ} {tolFactor : ℚ}

theorem Added.scopeDelta_eq (h : Added A data data' cfg₀) {b cfg : Text} (hne : cfg ≠ cfg₀) (cpu : Cpu) (eb : Text) :
    scopeDelta A data' scope b cfg cpu eb = scopeDelta A data scope b cfg cpu eb := by
  refine (cellDelta_congr (h.others _ cpu cfg hne).symm fun best hbest => ?_).symm
  set key : Key := (b, scope.cpu1bench, eb)
  have hmetric : ∀ c, c ≠ cfg₀ → (A.cpuCfgMetrics cpu (cpuData data' key cpu)).get? c =
      (A.cpuCfgMetrics cpu (cpuData data key cpu)).get? c := fun c hc => by
    rw [Arithmetic.cpuCfgMetrics, Arithmetic.cpuCfgMetrics, Dict.get?_filterMapValues,
      Dict.get?_filterMapValues, h.others key cpu c hc]
  have hbestne : best.1 ≠ cfg₀ := by
    intro heq
    have hget := Dict.get?_eq_some.mpr hbest.1
    rw [Arithmetic.cpuCfgMetrics, Dict.get?_filterMapValues, heq, h.new] at hget
    cases hget
  refine ⟨Dict.get?_eq_some.mp ((hmetric _ hbestne).trans (Dict.get?_eq_some.mpr hbest.1)), fun e he => ?_⟩
  have hget := Dict.get?_eq_some.mpr he
  by_cases heq : e.1 = cfg₀
  · rw [heq] at hget
    exact h.worse key cpu best e.2 hbest hget
  · rw [hmetric _ heq] at hget
    exact hbest.2 e (Dict.get?_eq_some.mp hget)

theorem Added.embenchsOf_eq (h : Added A data data' cfg₀) (b : Text) :
    embenchsOf data' scope b = embenchsOf data scope b := by
  have hmem : ∀ eb, eb ∈ embenchsOf data' scope b ↔ eb ∈ embenchsOf data scope b := fun eb => by
    rw [mem_embenchsOf, mem_embenchsOf, h.keys]
  exact sortedSet_congr Function.injective_id fun eb => mem_sortedSet.symm.trans ((hmem eb).trans mem_sortedSet)

theorem Added.rowOf_eq (h : Added A data data' cfg₀) {p : Text × Text} (hne : p.2 ≠ cfg₀) :
    rowOf A data' scope tau tolFactor p = rowOf A data scope tau tolFactor p := by
  have hdelta : ∀ cpu, scopeDelta A data' scope p.1 p.2 cpu = scopeDelta A data scope p.1 p.2 cpu :=
    fun cpu => funext (h.scopeDelta_eq hne cpu)
  have hmean : meanDelta A data' scope p.1 p.2 = meanDelta A data scope p.1 p.2 := funext fun cpu => by
    rw [meanDelta, meanDelta, h.embenchsOf_eq, hdelta]
  have htotal : measuredAll A data' scope p.1 p.2 = measuredAll A data scope p.1 p.2 := funext fun eb => by
    simp only [measuredAll, hdelta]
  have haccepted : acceptedAll A data' scope tau tolFactor p.1 p.2 = acceptedAll A data scope tau tolFactor p.1 p.2 :=
    funext fun eb => by simp only [acceptedAll, hdelta]
  simp only [Tuner.rowOf, worstDelta, hmean, h.embenchsOf_eq, htotal, haccepted]

theorem Added.hasData_iff (h : Added A data data' cfg₀) {b cfg : Text} (hne : cfg ≠ cfg₀) :
    HasData data' scope b cfg ↔ HasData data scope b cfg := by
  simp only [HasData, Dict.mem_keys_iff_isSome, h.others _ _ cfg hne]

/-- **A configuration that is no better changes no other row.** -/
theorem rows_add (h : Added A data data' cfg₀) (hin : InScope data scope)
    {sort : (Row → Row → Bool) → List Row → List Row} (hsort : IsStableSort sort) {rows rows' : List Row}
    (hrows : A.rankConfigsForAutotune u sort data scope tau tolFactor = .ok rows)
    (hrows' : A.rankConfigsForAutotune u sort data' scope tau tolFactor = .ok rows') {r : Row} (hne : r.cfg ≠ cfg₀) :
    r ∈ rows' ↔ r ∈ rows := by
  have hin' : InScope data' scope := fun b hb => by simpa only [h.keys] using hin b hb
  rw [mem_ranking hin hsort hrows, mem_ranking hin' hsort hrows', h.hasData_iff hne, h.rowOf_eq hne]

end Add

/-- A third configuration, slower than the second. -/
def fftDataSlower : Data :=
  .ofList [(fftKey, .ofList [(Cpu.cpu0.name, fftRuns.insert "2_2_4-8".toList [2500])])]

theorem fft_added : Added rationals fftData fftDataSlower "2_2_4-8".toList := by
  have hname : ∀ cpu : Cpu, cpu.name = Cpu.cpu0.name ↔ cpu = .cpu0 := fun cpu => by cases cpu <;> decide
  have hcell : ∀ (runs : Dict Text (List ℤ)) (key : Key) (cpu : Cpu),
      cpuData (.ofList [(fftKey, .ofList [(Cpu.cpu0.name, runs)])]) key cpu =
        if key = fftKey ∧ cpu = .cpu0 then runs else .empty := by
    intro runs key cpu
    have hone : (Dict.ofList [(fftKey, Dict.ofList [(Cpu.cpu0.name, runs)])]).get? key =
        if key = fftKey then some (.ofList [(Cpu.cpu0.name, runs)]) else none := Dict.get?_insert ..
    have hrun : (Dict.ofList [(Cpu.cpu0.name, runs)]).get? cpu.name =
        if cpu.name = Cpu.cpu0.name then some runs else none := Dict.get?_insert ..
    rw [cpuData, hone]
    by_cases hkey : key = fftKey
    · simp only [hkey, if_true, Option.bind_some, hrun, hname, true_and]
      by_cases hcpu : cpu = .cpu0 <;> simp [hcpu]
    · simp [hkey]
  refine ⟨fun _ => Iff.rfl, fun key cpu cfg hne => ?_, fun key cpu => ?_, fun key cpu b v hb hv => ?_⟩
  · rw [fftData, fftDataSlower, hcell, hcell]
    split
    · rw [Dict.get?_insert, if_neg hne]
    · rfl
  · rw [fftData, hcell]
    split
    · decide +kernel
    · rfl
  · rw [fftData, hcell] at hb
    rw [fftDataSlower, hcell] at hv
    split at hb
    · next hcpu =>
      rw [if_pos hcpu, hcpu.2] at hv
      have hvalue : (rationals.cpuCfgMetrics .cpu0 (fftRuns.insert "2_2_4-8".toList [2500])).get? "2_2_4-8".toList =
          some (5 / 2) := by decide +kernel
      have hmem : ("2_4_2-8".toList, (2 : ℚ)) ∈ (rationals.cpuCfgMetrics .cpu0 fftRuns).items := by decide +kernel
      rw [hcpu.2] at hb ⊢
      obtain rfl := Option.some.inj (hvalue.symm.trans hv)
      have hle : b.2 ≤ 2 := hb.2 _ hmem
      show b.2 ≤ 5 / 2
      linarith
    · next hcpu =>
      rw [if_neg hcpu] at hv
      cases hv

theorem rows_add_fft : ∃ rows rows',
    rationals.rankConfigsForAutotune asciiData insertionSortBy fftData fftScope (fun _ => 10) (3 / 2) = .ok rows ∧
    rationals.rankConfigsForAutotune asciiData insertionSortBy fftDataSlower fftScope (fun _ => 10) (3 / 2) = .ok rows' ∧
    ∀ r, r.cfg ≠ "2_2_4-8".toList → (r ∈ rows' ↔ r ∈ rows) := by
  have hin : InScope fftDataSlower fftScope := fun b hb => by
    simpa only [fft_added.keys] using fft_inScope b hb
  exact ⟨_, _, rankConfigs_eq fft_inScope _, rankConfigs_eq hin _, fun r hne =>
    rows_add fft_added fft_inScope isStableSort_insertionSortBy (rankConfigs_eq fft_inScope _)
      (rankConfigs_eq hin _) hne⟩

end Tuner
end DaatMcs
