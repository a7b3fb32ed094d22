/-
# The path of the classes alone

The `trees` command needs no deltas: `build_class_matrices` and `compute_class`
are copies of `build_matrices` and `compute_baseline_delta_class` without them.
Here both builders are the loops of the source, which go through the columns
and set the entries of matrices of NaN. `classMatrices_eq` is that the copies
agree entry by entry, so the command draws the trees that the others draw.
-/
import DaatMcs.Lib.Grid
import DaatMcs.Tuner.Trees

namespace DaatMcs
namespace Tuner

/-! ### The builders -/

variable (A : Arithmetic) (u : UnicodeData)

def Arithmetic.computeClass (values : Dict Text ℚ) (cpu : Cpu) (tau tolFactor : ℚ) : Option (Dict Text ℕ) :=
  (baselineOf cpu values).map fun b =>
    values.filterMapValues fun v => some (A.classOf tau tolFactor (A.deltaOf cpu b.2 v))

structure ClassMatrices where
  embenchList : List Text
  cfgList : List Text
  classByCpu : Cpu → Matrix ℕ

/-- The loops of `build_class_matrices` for a CPU; a column without metrics is
left as it is. -/
def Arithmetic.fillClassMatrix (data : Data) (cpu0bench : Text) (k : Keys) (tau : Cpu → ℚ) (tolFactor : ℚ)
    (cpu : Cpu) : Matrix ℕ :=
  k.embenchList.zipIdx.foldl (fun classMat eb =>
    let cpuCfgMetrics := A.cpuCfgMetrics cpu (cpuData data (cpu0bench, k.cpu1bench, eb.1) cpu)
    match A.computeClass cpuCfgMetrics cpu (tau cpu) tolFactor with
    | some kmap => Grid.fillColumn kmap.get? k.cfgList eb.2 classMat
    | none => classMat) (Grid.full ℕ k.cfgList.length k.embenchList.length)

def Arithmetic.buildClassMatrices (data : Data) (sel : Selection) (tau : Cpu → ℚ) (tolFactor : ℚ) :
    Except KeysError ClassMatrices :=
  (keys u data sel).map fun k => ⟨k.embenchList, k.cfgList, A.fillClassMatrix data sel.cpu0bench k tau tolFactor⟩

/-- The inner loop of `build_matrices`: what has a delta gets it and its class. -/
def fillBoth (m : DeltaClass) (cfgList : List Text) (j : ℕ) (mats : Matrix ℚ × Matrix ℕ) :
    Matrix ℚ × Matrix ℕ :=
  cfgList.zipIdx.foldl (fun mats cfg =>
    match m.delta.get? cfg.1, m.klass.get? cfg.1 with
    | some d, some k => (Grid.put mats.1 cfg.2 j d, Grid.put mats.2 cfg.2 j k)
    | _, _ => mats) mats

/-- The loops of `build_matrices` for a CPU. -/
def Arithmetic.fillMatrices (data : Data) (cpu0bench : Text) (k : Keys) (tau : Cpu → ℚ) (tolFactor : ℚ)
    (cpu : Cpu) : Matrix ℚ × Matrix ℕ :=
  k.embenchList.zipIdx.foldl (fun mats eb =>
    let cpuCfgMetrics := A.cpuCfgMetrics cpu (cpuData data (cpu0bench, k.cpu1bench, eb.1) cpu)
    match A.computeBaselineDeltaClass cpuCfgMetrics cpu (tau cpu) tolFactor with
    | some m => fillBoth m k.cfgList eb.2 mats
    | none => mats)
    (Grid.full ℚ k.cfgList.length k.embenchList.length, Grid.full ℕ k.cfgList.length k.embenchList.length)

/-- The trees of all benchmarks, as they are drawn. -/
def drawnTrees (u : UnicodeData) (classByCpu : Cpu → Matrix ℕ) (cfgList embenchList : List Text) (style : TreesStyle) :
    List (Option (Tree × Text × List Text)) :=
  (List.range embenchList.length).map fun ebIdx =>
    buildDecisionTreeForBenchmark u classByCpu ebIdx cfgList embenchList style

/-! ### The copies agree -/

/-- The classes are those of the deltas. -/
theorem computeClass_eq (values : Dict Text ℚ) (cpu : Cpu) (tau tolFactor : ℚ) :
    A.computeClass values cpu tau tolFactor =
      (A.computeBaselineDeltaClass values cpu tau tolFactor).map DeltaClass.klass := by
  rw [Arithmetic.computeClass, Arithmetic.computeBaselineDeltaClass, Option.map_map]
  rfl

/-- What has a delta has a class, and nothing else has. -/
theorem isSome_delta_iff {A : Arithmetic} {values : Dict Text ℚ} {cpu : Cpu} {tau tolFactor : ℚ} {m : DeltaClass}
    (h : A.computeBaselineDeltaClass values cpu tau tolFactor = some m) (cfg : Text) :
    (m.delta.get? cfg).isSome ↔ (m.klass.get? cfg).isSome := by
  obtain ⟨b, -, rfl⟩ := Option.map_eq_some_iff.mp h
  simp only [Dict.get?_filterMapValues]
  cases values.get? cfg <;> rfl

/-- So the two matrices are filled as they are one by one. -/
theorem fillBoth_eq {m : DeltaClass} (h : ∀ cfg, (m.delta.get? cfg).isSome ↔ (m.klass.get? cfg).isSome)
    (cfgList : List Text) (j : ℕ) (mats : Matrix ℚ × Matrix ℕ) :
    fillBoth m cfgList j mats =
      (Grid.fillColumn m.delta.get? cfgList j mats.1, Grid.fillColumn m.klass.get? cfgList j mats.2) := by
  unfold fillBoth Grid.fillColumn
  generalize cfgList.zipIdx = l
  induction l generalizing mats with
  | nil => rfl
  | cons cfg l ih =>
    have hcfg := h cfg.1
    rw [List.foldl_cons, List.foldl_cons, List.foldl_cons, ih]
    cases hd : m.delta.get? cfg.1 with
    | none =>
      rw [hd] at hcfg
      cases hk : m.klass.get? cfg.1 with
      | none => rfl
      | some k => simp [hk] at hcfg
    | some d =>
      rw [hd] at hcfg
      cases hk : m.klass.get? cfg.1 with
      | none => simp [hk] at hcfg
      | some k => rfl

section Loops

variable (data : Data) (cpu0bench : Text) (k : Keys) (tau : Cpu → ℚ) (tolFactor : ℚ) (cpu : Cpu)

/-- The deltas and classes of a benchmark's column. -/
def column (eb : Text) : Option DeltaClass :=
  A.columnOf data (cpu0bench, k.cpu1bench, eb) tau tolFactor cpu

theorem fillClassMatrix_eq : A.fillClassMatrix data cpu0bench k tau tolFactor cpu =
    k.cfgList.map fun cfg => k.embenchList.map fun eb =>
      (column A data cpu0bench k tau tolFactor cpu eb).bind fun m => m.klass.get? cfg := by
  rw [← Grid.fill_eq, Arithmetic.fillClassMatrix]
  simp only [Grid.fillColumn_bind, computeClass_eq, column, Arithmetic.columnOf]
  congr 1
  funext classMat eb
  cases A.computeBaselineDeltaClass (A.cpuCfgMetrics cpu (cpuData data (cpu0bench, k.cpu1bench, eb.1) cpu)) cpu
    (tau cpu) tolFactor <;> rfl

/-- The loops of `build_matrices` fill the matrices its model has. -/
theorem fillMatrices_eq : A.fillMatrices data cpu0bench k tau tolFactor cpu =
    (k.cfgList.map fun cfg => k.embenchList.map fun eb =>
        (column A data cpu0bench k tau tolFactor cpu eb).bind fun m => m.delta.get? cfg,
      k.cfgList.map fun cfg => k.embenchList.map fun eb =>
        (column A data cpu0bench k tau tolFactor cpu eb).bind fun m => m.klass.get? cfg) := by
  rw [← Grid.fill_eq, ← Grid.fill_eq, Arithmetic.fillMatrices]
  refine Grid.foldl_prod (fun mats eb => ?_) _ _
  simp only [Grid.fillColumn_bind, column, Arithmetic.columnOf]
  cases hm : A.computeBaselineDeltaClass (A.cpuCfgMetrics cpu (cpuData data (cpu0bench, k.cpu1bench, eb.1) cpu)) cpu
    (tau cpu) tolFactor with
  | none => rfl
  | some m => exact fillBoth_eq (isSome_delta_iff hm) k.cfgList eb.2 mats

end Loops

/-- `build_matrices` with its loops written out. -/
theorem buildMatrices_eq_loops (data : Data) (sel : Selection) (tau : Cpu → ℚ) (tolFactor : ℚ) :
    A.buildMatrices u data sel tau tolFactor = (keys u data sel).map fun k =>
      { embenchList := k.embenchList
        cfgList := k.cfgList
        deltaByCpu := fun cpu => (A.fillMatrices data sel.cpu0bench k tau tolFactor cpu).1
        classByCpu := fun cpu => (A.fillMatrices data sel.cpu0bench k tau tolFactor cpu).2 } := by
  simp only [fillMatrices_eq]
  rfl

/-- **Main result.** For every data set, selection and tolerances the classes
alone are those of the full matrices, with the same benchmarks and
configurations and the same entries missing; both fail with the same error for
the same selections; and the trees drawn of both are the same. -/
theorem classMatrices_eq (data : Data) (sel : Selection) (tau : Cpu → ℚ) (tolFactor : ℚ) (style : TreesStyle) :
    A.buildClassMatrices u data sel tau tolFactor = (A.buildMatrices u data sel tau tolFactor).map (fun m =>
        ⟨m.embenchList, m.cfgList, m.classByCpu⟩) ∧
      (A.buildClassMatrices u data sel tau tolFactor).map (fun m =>
          drawnTrees u m.classByCpu m.cfgList m.embenchList style) =
        (A.buildMatrices u data sel tau tolFactor).map fun m =>
          drawnTrees u m.classByCpu m.cfgList m.embenchList style := by
  have hsame : A.buildClassMatrices u data sel tau tolFactor = (A.buildMatrices u data sel tau tolFactor).map (fun m =>
      ⟨m.embenchList, m.cfgList, m.classByCpu⟩) := by
    unfold Arithmetic.buildClassMatrices Arithmetic.buildMatrices
    cases keys u data sel with
    | error e => rfl
    | ok k =>
      have hfill := funext (fillClassMatrix_eq A data sel.cpu0bench k tau tolFactor)
      simp only [Except.map, hfill]
      rfl
  refine ⟨hsame, ?_⟩
  rw [hsame]
  cases A.buildMatrices u data sel tau tolFactor <;> rfl

end Tuner
end DaatMcs
