/-
# The mean of repeated benchmark runs

`main` of `hist_macro.py` goes through the result folders and keeps for each
snoop type, coherency, series and benchmark one time: a further time is
averaged with the one there is. Folders that differ in the number of CPUs only
fall into one series, so this is done as often as there are such folders, and
the time kept is the mean of all in whatever order the folders come iff no
cell gets three times that are not all the same (`aggregate_mean_iff`).
-/
import DaatMcs.Lib.RunningMean
import DaatMcs.Scripts.MacroLogs

namespace DaatMcs
namespace Scripts
namespace MacroMeans

open MacroLogs RunningMean

/-- `series_label`. -/
def seriesLabel : TestType → ℕ → Text
  | .solo, _ => "SOLO".toList
  | .dma, channels => "DMA-".toList ++ showNat channels ++ "ch".toList
  | .dmaFpga, channels => "DMA+FPGA-".toList ++ showNat channels ++ "ch".toList

/-- An entry of the results directory, with its log where it has one. -/
structure Folder where
  name : Text
  isDir : Bool
  log : Option Text

/-- `data`: by snoop type, coherency, series and benchmark. -/
abbrev Data := Dict ℕ (Dict ℕ (Dict Text (Dict Text ℚ)))

def initialData : Data :=
  Dict.ofList [(1, Dict.ofList [(0, .empty), (1, .empty)]), (2, Dict.ofList [(0, .empty), (1, .empty)])]

/-- The body of the loop over `bench_times`. -/
def addTime (times : Dict Text ℚ) (e : Text × ℚ) : Dict Text ℚ :=
  match times.get? e.1 with
  | some v => times.insert e.1 ((v + e.2) / 2)
  | none => times.insert e.1 e.2

/-- The times of a folder are put into the cells of its series. -/
def addTimes (data : Data) (p : FolderParams) (benchTimes : Dict Text ℚ) : Data :=
  match data.get? p.snoop with
  | none => data
  | some bySnoop =>
    match bySnoop.get? p.coherency with
    | none => data
    | some byCoherency =>
      let series := seriesLabel p.testType p.channels
      let times := (byCoherency.get? series).getD .empty
      data.insert p.snoop (bySnoop.insert p.coherency
        (byCoherency.insert series (benchTimes.items.foldl addTime times)))

/-- The body of the loop over the folders; `parse_log` may raise. -/
def addFolder (u : UnicodeData) (data : Data) (f : Folder) : Option Data :=
  if f.isDir then
    match parseFolderName u f.name, f.log with
    | some p, some log =>
      (parseLog u log).map fun benchTimes =>
        if benchTimes.items = [] then data else addTimes data p benchTimes
    | _, _ => some data
  else some data

/-- The aggregation loop. -/
def aggregate (u : UnicodeData) (folders : List Folder) : Option Data :=
  folders.foldlM (addFolder u) initialData

/-- A cell of the plots. -/
structure Cell where
  snoop : ℕ
  coherency : ℕ
  series : Text
  bench : Text

/-- `data[snoop][coh][series][bench]`. -/
def value (data : Data) (c : Cell) : Option ℚ :=
  (((data.get? c.snoop).bind (·.get? c.coherency)).bind (·.get? c.series)).bind (·.get? c.bench)

/-- The cells of `data` that there are from the start. -/
def InScope (snoop coherency : ℕ) : Prop := (snoop = 1 ∨ snoop = 2) ∧ (coherency = 0 ∨ coherency = 1)

instance (snoop coherency : ℕ) : Decidable (InScope snoop coherency) := inferInstanceAs (Decidable (_ ∧ _))

/-- The time a folder has for a cell. -/
def folderTime (u : UnicodeData) (c : Cell) (f : Folder) : Option ℚ :=
  if f.isDir then
    match parseFolderName u f.name, f.log with
    | some p, some log =>
      if InScope p.snoop p.coherency ∧ c.snoop = p.snoop ∧ c.coherency = p.coherency ∧
          c.series = seriesLabel p.testType p.channels then
        (parseLog u log).bind (·.get? c.bench)
      else none
    | _, _ => none
  else none

/-- All times the folders have for a cell. -/
def times (u : UnicodeData) (folders : List Folder) (c : Cell) : List ℚ :=
  folders.filterMap (folderTime u c)

/-- The folder's log raises no exception, where it is read. -/
def Readable (u : UnicodeData) (f : Folder) : Prop :=
  f.isDir = true → (parseFolderName u f.name).isSome → ∀ log ∈ f.log, (parseLog u log).isSome

/-! ### One cell -/

variable {u : UnicodeData}

/-- What a cell holds after one more folder. -/
def after (v : Option ℚ) : Option ℚ → Option ℚ
  | some t => halve v t
  | none => v

theorem get?_addTime (times : Dict Text ℚ) (e : Text × ℚ) (bench : Text) :
    (addTime times e).get? bench = after (times.get? bench) (if e.1 = bench then some e.2 else none) := by
  unfold addTime
  by_cases he : e.1 = bench
  · subst he
    rw [if_pos rfl]
    cases h : times.get? e.1 with
    | none => exact Dict.get?_insert_self times e.1 e.2
    | some v => exact Dict.get?_insert_self times e.1 ((v + e.2) / 2)
  · rw [if_neg he, after]
    split <;> rw [Dict.get?_insert, if_neg (Ne.symm he)]

/-- Each benchmark of a log comes once. -/
theorem get?_foldl_addTime (bench : Text) : ∀ (l : List (Text × ℚ)) (times : Dict Text ℚ),
    (l.map Prod.fst).Nodup → (l.foldl addTime times).get? bench =
      after (times.get? bench) ((l.find? fun e => e.1 = bench).map Prod.snd)
  | [], _, _ => rfl
  | e :: l, times, h => by
    rw [List.map_cons, List.nodup_cons] at h
    rw [List.foldl_cons, get?_foldl_addTime bench l _ h.2, get?_addTime]
    by_cases he : e.1 = bench
    · have hnone : (l.find? fun e => e.1 = bench) = none := List.find?_eq_none.mpr fun x hx hxb =>
        h.1 (List.mem_map.mpr ⟨x, hx, (of_decide_eq_true hxb).trans he.symm⟩)
      rw [hnone, if_pos he, List.find?_cons_of_pos (by simpa using he)]
      rfl
    · rw [if_neg he, List.find?_cons_of_neg (by simpa using he)]
      rfl

/-- The cells of `data` are those in scope. -/
def Shape (data : Data) : Prop := ∀ snoop coherency,
  ((data.get? snoop).bind (·.get? coherency)).isSome ↔ InScope snoop coherency

theorem get?_pair {κ υ : Type} [DecidableEq κ] {a b : κ} (hab : a ≠ b) (v w : υ) (k : κ) :
    (Dict.ofList [(a, v), (b, w)]).get? k = if k = a then some v else if k = b then some w else none := by
  have hinsert : Dict.ofList [(a, v), (b, w)] = (Dict.insert .empty a v).insert b w := rfl
  rw [hinsert, Dict.get?_insert, Dict.get?_insert]
  by_cases hka : k = a
  · rw [if_neg fun hkb => hab (hka.symm.trans hkb), if_pos hka, if_pos hka]
  · rw [if_neg hka, if_neg hka]
    rfl

theorem shape_initialData : Shape initialData := by
  intro snoop coherency
  rw [initialData, get?_pair (by decide)]
  have hinner : ((Dict.ofList [(0, Dict.empty), (1, Dict.empty)]).get? coherency :
      Option (Dict Text (Dict Text ℚ))).isSome ↔ coherency = 0 ∨ coherency = 1 := by
    rw [get?_pair (by decide)]
    split_ifs <;> simp_all
  unfold InScope
  split_ifs with h₁ h₂
  · rw [Option.bind_some, hinner, and_iff_right (.inl h₁)]
  · rw [Option.bind_some, hinner, and_iff_right (.inr h₂)]
  · simp [h₁, h₂]

theorem addTimes_of_not_inScope {data : Data} (hshape : Shape data) {p : FolderParams}
    (hscope : ¬ InScope p.snoop p.coherency) (benchTimes : Dict Text ℚ) :
    addTimes data p benchTimes = data := by
  have hnone : (data.get? p.snoop).bind (·.get? p.coherency) = none := by
    rw [← Option.not_isSome_iff_eq_none, hshape]
    exact hscope
  unfold addTimes
  split
  · rfl
  · next bySnoop hsnoop =>
    rw [hsnoop, Option.bind_some] at hnone
    rw [hnone]

/-- A cell of the folder's series is averaged with the folder's time, the
others stay. -/
theorem addTimes_spec {data : Data} (hshape : Shape data) (p : FolderParams) (benchTimes : Dict Text ℚ) :
    Shape (addTimes data p benchTimes) ∧ ∀ c, value (addTimes data p benchTimes) c =
      after (value data c) (if InScope p.snoop p.coherency ∧ c.snoop = p.snoop ∧
        c.coherency = p.coherency ∧ c.series = seriesLabel p.testType p.channels then
        benchTimes.get? c.bench else none) := by
  by_cases hscope : InScope p.snoop p.coherency
  · unfold addTimes
    obtain ⟨byCoherency, hboth⟩ := Option.isSome_iff_exists.mp ((hshape _ _).mpr hscope)
    obtain ⟨bySnoop, hsnoop, hcoh⟩ := Option.bind_eq_some_iff.mp hboth
    simp only [hsnoop, hcoh]
    constructor
    · intro snoop coherency
      rw [Dict.get?_insert]
      by_cases hs : snoop = p.snoop
      · rw [if_pos hs, Option.bind_some, Dict.get?_insert]
        by_cases hc : coherency = p.coherency
        · rw [if_pos hc, hs, hc]
          exact iff_of_true rfl hscope
        · have hold := hshape snoop coherency
          rw [hs, hsnoop, Option.bind_some] at hold
          rw [if_neg hc, hs, hold]
      · rw [if_neg hs]
        exact hshape snoop coherency
    · intro c
      unfold value
      rw [Dict.get?_insert]
      by_cases hs : c.snoop = p.snoop
      · rw [if_pos hs, Option.bind_some, Dict.get?_insert, hs, hsnoop, Option.bind_some]
        by_cases hc : c.coherency = p.coherency
        · rw [if_pos hc, Option.bind_some, Dict.get?_insert, hc, hcoh, Option.bind_some]
          by_cases hser : c.series = seriesLabel p.testType p.channels
          · rw [if_pos hser, if_pos ⟨hscope, rfl, rfl, hser⟩, Option.bind_some, ← hser,
              get?_foldl_addTime c.bench _ _ benchTimes.nodup]
            cases byCoherency.get? c.series <;> rfl
          · rw [if_neg hser, if_neg fun h => hser h.2.2.2]
            rfl
        · rw [if_neg hc, if_neg fun h => hc h.2.2.1]
          rfl
      · rw [if_neg hs, if_neg fun h => hs h.2.1]
        rfl
  · rw [addTimes_of_not_inScope hshape hscope]
    refine ⟨hshape, fun c => ?_⟩
    rw [if_neg fun h => hscope h.1]
    rfl

/-- The body of the loop on one cell. -/
theorem addFolder_spec {data data' : Data} (hshape : Shape data) {f : Folder}
    (h : addFolder u data f = some data') :
    Shape data' ∧ ∀ c, value data' c = after (value data c) (folderTime u c f) := by
  unfold addFolder at h
  unfold folderTime
  by_cases hdir : f.isDir = true
  · rw [if_pos hdir] at h
    simp only [if_pos hdir]
    cases hp : parseFolderName u f.name with
    | none =>
      rw [hp] at h
      obtain rfl := Option.some.inj h
      exact ⟨hshape, fun c => rfl⟩
    | some p =>
      cases hlog : f.log with
      | none =>
        rw [hp, hlog] at h
        obtain rfl := Option.some.inj h
        exact ⟨hshape, fun c => rfl⟩
      | some log =>
        rw [hp, hlog] at h
        obtain ⟨benchTimes, hread, hdata⟩ := Option.map_eq_some_iff.mp h
        have hspec := addTimes_spec hshape p benchTimes
        simp only [hread, Option.bind_some]
        split at hdata
        · next hnil =>
          subst hdata
          have hget : ∀ bench, benchTimes.get? bench = none := fun bench => by rw [Dict.get?, hnil]; rfl
          refine ⟨hshape, fun c => ?_⟩
          rw [hget, ite_self]
          rfl
        · subst hdata
          exact hspec
  · rw [if_neg hdir] at h
    obtain rfl := Option.some.inj h
    refine ⟨hshape, fun c => ?_⟩
    rw [if_neg hdir]
    rfl

/-- The loop on one cell. -/
theorem foldlM_addFolder (c : Cell) : ∀ {folders : List Folder} {data data' : Data}, Shape data →
    folders.foldlM (addFolder u) data = some data' →
      value data' c = (times u folders c).foldl halve (value data c)
  | [], _, _, _, h => by
    rw [List.foldlM_nil] at h
    rw [← Option.some.inj h]
    rfl
  | f :: folders, data, data', hshape, h => by
    rw [List.foldlM_cons] at h
    obtain ⟨data₁, hstep, hrest⟩ := Option.bind_eq_some_iff.mp h
    obtain ⟨hshape₁, hvalue⟩ := addFolder_spec hshape hstep
    rw [foldlM_addFolder c hshape₁ hrest, hvalue, times, times]
    cases hf : folderTime u c f with
    | none => rw [List.filterMap_cons_none hf]; rfl
    | some t => rw [List.filterMap_cons_some hf]; rfl

theorem value_aggregate {folders : List Folder} {data : Data} (h : aggregate u folders = some data)
    (c : Cell) : value data c = halving (times u folders c) := by
  have hinit : value initialData c = none := by
    rw [value, initialData, get?_pair (by decide)]
    split_ifs
    · rw [Option.bind_some, get?_pair (by decide)]
      split_ifs <;> rfl
    · rw [Option.bind_some, get?_pair (by decide)]
      split_ifs <;> rfl
    · rfl
  rw [foldlM_addFolder c shape_initialData h, hinit]
  rfl

/-! ### Every order -/

/-- The loop ends without an exception iff every log it reads does. -/
theorem aggregate_isSome (u : UnicodeData) (folders : List Folder) :
    (aggregate u folders).isSome ↔ ∀ f ∈ folders, Readable u f := by
  have hstep : ∀ (data : Data) (f : Folder), (addFolder u data f).isSome ↔ Readable u f := by
    intro data f
    unfold addFolder Readable
    by_cases hdir : f.isDir = true
    · rw [if_pos hdir]
      cases parseFolderName u f.name <;> cases f.log <;> simp [hdir]
    · simp [hdir]
  have hfold : ∀ (folders : List Folder) (data : Data),
      (folders.foldlM (addFolder u) data).isSome ↔ ∀ f ∈ folders, Readable u f := by
    intro folders
    induction folders with
    | nil => simp
    | cons f folders ih =>
      intro data
      rw [List.foldlM_cons, List.forall_mem_cons, ← hstep data f]
      cases addFolder u data f with
      | none => simp
      | some data₁ => exact (ih data₁).trans (and_iff_right rfl).symm
  exact hfold folders initialData

/-- **Main result.** Whatever the order of the folders, each cell holds the
mean of all times there are for it, iff no cell has three times or more that
are not all the same (or some log stops the loop). -/
theorem aggregate_mean_iff (u : UnicodeData) (folders : List Folder) :
    (∀ order : List Folder, order.Perm folders → ∀ data, aggregate u order = some data →
        ∀ c, value data c = mean (times u folders c)) ↔
      ((∀ f ∈ folders, Readable u f) → ∀ c, (times u folders c).length ≤ 2 ∨
        ∀ s ∈ times u folders c, ∀ t ∈ times u folders c, s = t) := by
  constructor
  · intro h hread c
    refine halving_eq_mean_iff.mp fun ts hts => ?_
    obtain ⟨order, horder, htimes⟩ := exists_perm_filterMap hts
    obtain ⟨data, hdata⟩ := Option.isSome_iff_exists.mp
      ((aggregate_isSome u order).mpr fun f hf => hread f (horder.subset hf))
    rw [← h order horder data hdata c, value_aggregate hdata, times, htimes]
  · intro h order horder data hdata c
    have hread : ∀ f ∈ folders, Readable u f := fun f hf =>
      (aggregate_isSome u order).mp (Option.isSome_of_eq_some hdata) f (horder.symm.subset hf)
    rw [value_aggregate hdata]
    exact halving_eq_mean_iff.mpr (h hread c) _ (horder.filterMap _)

/-- A folder of a SOLO test that took some seconds. -/
def soloFolder (cpus seconds : ℕ) : Folder where
  name := "baremetal_cci_TEST_TYPE_SOLO_snoop1_ch1_coh0_C".toList ++ showNat cpus
  isDir := true
  log := some ("-> mibench/automotive/qsort-small\n# Final result:\n".toList ++ showNat seconds)

/-- Three folders that differ in the number of CPUs only. -/
theorem three_runs : ¬ ∀ order : List Folder,
    order.Perm [soloFolder 1 1, soloFolder 2 2, soloFolder 3 3] → ∀ data,
      aggregate asciiData order = some data → ∀ c, value data c =
        mean (times asciiData [soloFolder 1 1, soloFolder 2 2, soloFolder 3 3] c) := by
  intro h
  have hdata : (aggregate asciiData [soloFolder 1 1, soloFolder 2 2, soloFolder 3 3]).map
      (value · ⟨1, 0, "SOLO".toList, "qsort-small".toList⟩) = some (some (9 / 4)) := by decide +kernel
  obtain ⟨data, hread, hvalue⟩ := Option.map_eq_some_iff.mp hdata
  have hmean : mean (times asciiData [soloFolder 1 1, soloFolder 2 2, soloFolder 3 3]
      ⟨1, 0, "SOLO".toList, "qsort-small".toList⟩) = some 2 := by decide +kernel
  have heq := h _ (.refl _) data hread ⟨1, 0, "SOLO".toList, "qsort-small".toList⟩
  rw [hvalue, hmean] at heq
  revert heq
  decide +kernel

end MacroMeans
end Scripts
end DaatMcs
