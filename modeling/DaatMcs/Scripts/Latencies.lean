/-
# Extracting latencies

`ila_waves_info.py` goes through the folders of the CCI tests. Of the captures
of a test it sorts the file names, drops the first file, numbers the others
from 2 on, and writes their latencies into one file for the test, named after
the parameters it read off the folder's name. The names are sorted as texts,
so from ten captures on the numbers are not those of the runs; and folders
that differ in the number of CPUs only write the same file. `extracted_iff` is
exactly when the output has the latencies of every run from the second on.
-/
import DaatMcs.Scripts.CciNames
import Mathlib.Data.Char
import Mathlib.Data.List.Lex
import Mathlib.Data.List.Sort

namespace DaatMcs
namespace Scripts

/-- The cells of a row of a capture, by column. -/
abbrev Row := Text → Text

/-- What `pd.read_csv` reads from a capture. -/
abbrev Capture := List Row

/-- A folder of a test: its name, and its `*.csv` files as `glob` lists them. -/
structure Folder where
  name : Text
  csvFiles : List (Text × Capture)

/-- A row of the output. The latency in nanoseconds is computed from the one
in cycles. -/
structure OutRow where
  run : ℕ
  transaction : ℕ
  latencyCycles : ℕ
  interference : Text
  snoopType : Text
  channels : ℕ
  coherency : Text
deriving DecidableEq

/-! ### The script -/

/-- The indices of the rows with a property. -/
def indices (p : Row → Bool) (df : Capture) : List ℕ := (df.zipIdx.filter fun r => p r.1).map Prod.snd

/-- The cycles from each request to the first response after it; without a
response there is no latency. -/
def calcLatencies (cfg : SnoopConfig) (df : Capture) : List ℕ :=
  let reqIndices := indices
    (fun row => row cfg.reqValid = cfg.reqValue ∧ row cfg.reqReady = "1".toList) df
  let responseIndices := indices (fun row => row cfg.response = cfg.respValue) df
  reqIndices.filterMap fun req => (responseIndices.find? fun i => req < i).map fun i => i - req

/-- `sort` of paths in one directory, by their names. -/
def sortBy {α : Type} (name : α → Text) (l : List α) : List α :=
  l.insertionSort fun a b => name a ≤ name b

/-- The rows of one run. -/
def transactions (info : TestInfo) (run : ℕ) (latencies : List ℕ) : List OutRow :=
  (latencies.zipIdx 1).map fun l =>
    { run := run
      transaction := l.2
      latencyCycles := l.1
      interference := info.interference
      snoopType := info.snoopType
      channels := info.channels
      coherency := info.coherency }

/-- The rows of the files but the first, numbered from 2 on. -/
def allTransactions (info : TestInfo) (cfg : SnoopConfig) (csvFiles : List (Text × Capture)) :
    List OutRow :=
  (csvFiles.tail.zipIdx 2).flatMap fun f => transactions info f.2 (calcLatencies cfg f.1.2)

def outFilename (info : TestInfo) : Text :=
  info.interference ++ "_".toList ++ info.snoopType ++ "_".toList ++ showNat info.channels ++
    "ch_".toList ++ info.coherency ++ ".csv".toList

/-- The output directory after a folder; without files nothing is written, and
none is the error of an invalid name. -/
def processTestFolder (u : UnicodeData) (outputDir : Dict Text (List OutRow)) (folder : Folder) :
    Option (Dict Text (List OutRow)) := do
  let testInfo ← parseTestFolder u folder.name
  let cfg ← snoopConfig testInfo.snoopId
  let csvFiles := sortBy Prod.fst folder.csvFiles
  return if csvFiles.isEmpty then outputDir
    else outputDir.insert (outFilename testInfo) (allTransactions testInfo cfg csvFiles)

/-- The main loop over the folders that `glob` finds. -/
def processAll (u : UnicodeData) (rootFolder : List Folder) : Option (Dict Text (List OutRow)) :=
  (sortBy Folder.name
    (rootFolder.filter fun f => "baremetal_cci_TEST_TYPE_".toList.isPrefixOf f.name)).foldlM
      (processTestFolder u) .empty

/-! ### Tests and their captures -/

/-- A test that has run: a folder with a valid name, and the number of its
captures. -/
structure Test (u : UnicodeData) where
  name : Text
  info : TestInfo
  tag : Text
  runs : ℕ
  prefixed : "baremetal_cci_TEST_TYPE_".toList <+: name
  valid : parseTestFolder u name = some info
  tag_mem : tag = "RS".toList ∨ tag = "WS".toList

/-- The file `getwaves.tcl` saves a run's capture in. -/
def captureName (tag : Text) (run : ℕ) : Text :=
  tag ++ "_capture_run".toList ++ showNat run ++ ".csv".toList

variable {u : UnicodeData}

/-- The files of a test with these captures, in the order of the runs. -/
def Test.files (t : Test u) (captures : ℕ → Capture) : List (Text × Capture) :=
  (List.range' 1 t.runs).map fun run => (captureName t.tag run, captures run)

/-- The folder of a test with these captures, its files in any order. -/
structure FolderOf (t : Test u) (captures : ℕ → Capture) (f : Folder) : Prop where
  name_eq : f.name = t.name
  files : f.csvFiles.Perm (t.files captures)

/-- The latencies of a capture, as the test's snoop type reads it. -/
def latenciesOf (info : TestInfo) (c : Capture) : List ℕ :=
  (snoopConfig info.snoopId).elim [] fun cfg => calcLatencies cfg c

/-- The rows the output is to have for a test: those of every run from the
second on, in order. -/
def expectedRows (t : Test u) (captures : ℕ → Capture) : List OutRow :=
  (List.range' 2 (t.runs - 1)).flatMap fun run =>
    transactions t.info run (latenciesOf t.info (captures run))

/-- Whatever the captures hold, the rows of all files written are those the
tests are to have; and no two tests write the same file. -/
def Extracted (tests : List (Test u)) : Prop :=
  (∀ (captures : Text → ℕ → Capture) (folders : List Folder),
    List.Forall₂ (fun t f => FolderOf t (captures t.name) f) tests folders →
    ∃ output, processAll u folders = some output ∧
      (output.items.flatMap Prod.snd).Perm (tests.flatMap fun t => expectedRows t (captures t.name))) ∧
  ((tests.filter fun t => 0 < t.runs).map fun t => outFilename t.info).Nodup

/-! ### The names of the output files -/

/-- What the information of a valid name can be. -/
structure Shape (info : TestInfo) : Prop where
  interference : ∃ testtype, info.interference = interference testtype
  snoop : (info.snoopId = 1 ∧ info.snoopType = "read".toList) ∨
    (info.snoopId = 2 ∧ info.snoopType = "write".toList)
  coherency : info.coherency = "coherent".toList ∨ info.coherency = "non_coherent".toList

theorem shape_of_valid {name : Text} {info : TestInfo} (h : parseTestFolder u name = some info) :
    Shape info := by
  obtain ⟨m, -, h⟩ := Option.bind_eq_some_iff.mp h
  unfold testInfo at h
  obtain ⟨testtype, -, h⟩ := Option.bind_eq_some_iff.mp h
  obtain ⟨snoopId, -, h⟩ := Option.bind_eq_some_iff.mp h
  obtain ⟨cfg, hcfg, h⟩ := Option.bind_eq_some_iff.mp h
  obtain ⟨coh, -, h⟩ := Option.bind_eq_some_iff.mp h
  obtain ⟨channels, -, h⟩ := Option.bind_eq_some_iff.mp h
  obtain rfl := Option.some.inj h
  refine ⟨⟨testtype, rfl⟩, ?_, ?_⟩
  · match snoopId, hcfg with
    | 1, hcfg =>
      obtain rfl := Option.some.inj hcfg
      exact .inl ⟨rfl, rfl⟩
    | 2, hcfg =>
      obtain rfl := Option.some.inj hcfg
      exact .inr ⟨rfl, rfl⟩
  · by_cases hcoh : coh = "1".toList
    · exact .inl (if_pos hcoh)
    · exact .inr (if_neg hcoh)

theorem exists_snoopConfig {info : TestInfo} (h : Shape info) :
    ∃ cfg, snoopConfig info.snoopId = some cfg := by
  rcases h.snoop with ⟨h, -⟩ | ⟨h, -⟩
  · rw [h]
    exact ⟨_, rfl⟩
  · rw [h]
    exact ⟨_, rfl⟩

def interferences : List Text :=
  ["solo".toList, "dma_interf".toList, "dma+fpga_interf".toList, "unknown".toList]

def typeNames : List Text := ["read".toList, "write".toList]

theorem interference_mem (testtype : Text) : interference testtype ∈ interferences := by
  rw [interference]
  split_ifs
  · exact List.mem_cons_self
  · exact List.mem_cons_of_mem _ List.mem_cons_self
  · exact List.mem_cons_of_mem _ (List.mem_cons_of_mem _ List.mem_cons_self)
  · exact List.mem_cons_of_mem _ (List.mem_cons_of_mem _ (List.mem_cons_of_mem _ List.mem_cons_self))

theorem Shape.mem {info : TestInfo} (h : Shape info) :
    info.interference ∈ interferences ∧ info.snoopType ∈ typeNames := by
  obtain ⟨testtype, hi⟩ := h.interference
  rw [hi]
  refine ⟨interference_mem testtype, ?_⟩
  rcases h.snoop with ⟨-, h⟩ | ⟨-, h⟩
  · rw [h]
    exact List.mem_cons_self
  · rw [h]
    exact List.mem_cons_of_mem _ List.mem_cons_self

/-- The part of an output file's name before the number of channels. -/
def stem (interference snoopType : Text) : Text :=
  interference ++ "_".toList ++ snoopType ++ "_".toList

/-- None of these parts starts another one. -/
theorem stem_apart : ∀ i ∈ interferences, ∀ i' ∈ interferences, ∀ s ∈ typeNames, ∀ s' ∈ typeNames,
    stem i s <+: stem i' s' → i = i' ∧ s = s' := by
  decide +kernel

/-- The name of an output file shows the information it was made of. -/
theorem outFilename_inj {info info' : TestInfo} (h : Shape info) (h' : Shape info')
    (heq : outFilename info = outFilename info') : info = info' := by
  have hch : "ch_".toList = 'c' :: "h_".toList := rfl
  have hsplit : ∀ info : TestInfo, outFilename info = stem info.interference info.snoopType ++
      (showNat info.channels ++ 'c' :: ("h_".toList ++ info.coherency ++ ".csv".toList)) := fun info => by
    unfold outFilename stem
    rw [hch]
    simp only [List.append_assoc, List.cons_append]
  rw [hsplit, hsplit] at heq
  have hstem : info.interference = info'.interference ∧ info.snoopType = info'.snoopType := by
    rcases List.prefix_or_prefix_of_prefix (List.prefix_append _ _)
      (heq ▸ List.prefix_append (stem info'.interference info'.snoopType) _) with hpre | hpre
    · exact stem_apart _ h.mem.1 _ h'.mem.1 _ h.mem.2 _ h'.mem.2 hpre
    · obtain ⟨hi, hs⟩ := stem_apart _ h'.mem.1 _ h.mem.1 _ h'.mem.2 _ h.mem.2 hpre
      exact ⟨hi.symm, hs.symm⟩
  rw [hstem.1, hstem.2, List.append_cancel_left_eq] at heq
  have hc : ('c').isDigit = false := by decide
  have hnum : showNat info.channels = showNat info'.channels := by
    refine (Literal.prefix_append_singleton ("h_".toList ++ info'.coherency ++ ".csv".toList)
      (notMem_showNat hc _) (notMem_showNat hc _)).mp ⟨"h_".toList ++ info.coherency ++ ".csv".toList, ?_⟩
    rw [← heq, List.append_assoc, List.singleton_append]
  rw [hnum, List.append_cancel_left_eq, List.cons.injEq, List.append_cancel_right_eq,
    List.append_cancel_left_eq] at heq
  have hid : info.snoopId = info'.snoopId := by
    have hne : "read".toList ≠ "write".toList := by decide
    rcases h.snoop with ⟨hid, hs⟩ | ⟨hid, hs⟩
    · rcases h'.snoop with ⟨hid', -⟩ | ⟨-, hs'⟩
      · rw [hid, hid']
      · exact absurd (hs.symm.trans (hstem.2.trans hs')) hne
    · rcases h'.snoop with ⟨-, hs'⟩ | ⟨hid', -⟩
      · exact absurd (hs'.symm.trans (hstem.2.symm.trans hs)) hne
      · rw [hid, hid']
  obtain ⟨i, s, n, c, k⟩ := info
  obtain ⟨i', s', n', c', k'⟩ := info'
  rw [TestInfo.mk.injEq]
  exact ⟨hstem.1, hstem.2, showNat_injective hnum, heq.2, hid⟩

/-! ### The loop over the folders -/

/-- The information of a folder with a valid name. -/
def ValidFolder (u : UnicodeData) (f : Folder) (info : TestInfo) : Prop :=
  "baremetal_cci_TEST_TYPE_".toList <+: f.name ∧ parseTestFolder u f.name = some info

/-- The rows a folder is written with. -/
def folderRows (info : TestInfo) (f : Folder) : List OutRow :=
  ((sortBy Prod.fst f.csvFiles).tail.zipIdx 2).flatMap fun file =>
    transactions info file.2 (latenciesOf info file.1.2)

theorem processTestFolder_eq {f : Folder} {info : TestInfo} (h : ValidFolder u f info)
    (outputDir : Dict Text (List OutRow)) : processTestFolder u outputDir f =
      some (if f.csvFiles = [] then outputDir
        else outputDir.insert (outFilename info) (folderRows info f)) := by
  obtain ⟨cfg, hcfg⟩ := exists_snoopConfig (shape_of_valid h.2)
  have hlat : latenciesOf info = calcLatencies cfg := funext fun c => by
    rw [latenciesOf, hcfg, Option.elim_some]
  have hempty : (sortBy Prod.fst f.csvFiles).isEmpty = true ↔ f.csvFiles = [] := by
    rw [List.isEmpty_iff, ← List.length_eq_zero_iff, sortBy, List.length_insertionSort,
      List.length_eq_zero_iff]
  unfold processTestFolder
  rw [h.2, folderRows, hlat]
  show (snoopConfig info.snoopId).bind (fun cfg => some (if (sortBy Prod.fst f.csvFiles).isEmpty = true
    then outputDir else outputDir.insert (outFilename info)
      (allTransactions info cfg (sortBy Prod.fst f.csvFiles)))) = _
  rw [hcfg, Option.bind_some]
  simp only [hempty]
  rfl

/-- Folders that write different files: each adds its file. -/
theorem foldlM_processTestFolder {infoOf : Folder → TestInfo} : ∀ {fs : List Folder}
    (outputDir : Dict Text (List OutRow)), (∀ f ∈ fs, ValidFolder u f (infoOf f)) →
    (outputDir.keys ++ (fs.filter fun f => f.csvFiles ≠ []).map fun f => outFilename (infoOf f)).Nodup →
    ∃ output, fs.foldlM (processTestFolder u) outputDir = some output ∧
      output.items.flatMap Prod.snd =
        outputDir.items.flatMap Prod.snd ++ fs.flatMap fun f => folderRows (infoOf f) f
  | [], outputDir, _, _ => ⟨outputDir, rfl, by simp⟩
  | f :: fs, outputDir, hvalid, hnd => by
    have hstep := processTestFolder_eq (hvalid f List.mem_cons_self) outputDir
    have hvalid' : ∀ f ∈ fs, ValidFolder u f (infoOf f) :=
      fun g hg => hvalid g (List.mem_cons_of_mem f hg)
    by_cases hf : f.csvFiles = []
    · rw [List.filter_cons_of_neg (by simpa using hf)] at hnd
      obtain ⟨output, hout, hitems⟩ := foldlM_processTestFolder outputDir hvalid' hnd
      refine ⟨output, ?_, ?_⟩
      · rw [List.foldlM_cons, hstep, if_pos hf]
        exact hout
      · rw [hitems, List.flatMap_cons, folderRows, hf]
        rfl
    · rw [List.filter_cons_of_pos (by simpa using hf), List.map_cons] at hnd
      have hnew : outFilename (infoOf f) ∉ outputDir.keys := fun hmem =>
        (List.nodup_append.mp hnd).2.2 _ hmem _ List.mem_cons_self rfl
      have hkeys : (outputDir.insert (outFilename (infoOf f)) (folderRows (infoOf f) f)).keys =
          outputDir.keys ++ [outFilename (infoOf f)] := by
        rw [Dict.keys_insert, if_neg hnew]
      obtain ⟨output, hout, hitems⟩ := foldlM_processTestFolder
        (outputDir.insert (outFilename (infoOf f)) (folderRows (infoOf f) f)) hvalid' (by
          rw [hkeys, List.append_assoc]
          exact hnd)
      refine ⟨output, ?_, ?_⟩
      · rw [List.foldlM_cons, hstep, if_neg hf]
        exact hout
      · rw [hitems, Dict.items_insert_of_not_mem _ hnew, List.flatMap_append, List.flatMap_cons,
          List.append_assoc]
        simp

/-! ### The order of the captures -/

section
variable {α : Type} (name : α → Text)

theorem perm_sortBy (l : List α) : (sortBy name l).Perm l := List.perm_insertionSort _ l

theorem pairwise_sortBy (l : List α) : (sortBy name l).Pairwise fun a b => name a ≤ name b := by
  have : Std.Total fun a b : α => name a ≤ name b := ⟨fun a b => le_total (name a) (name b)⟩
  have : IsTrans α fun a b : α => name a ≤ name b := ⟨fun _ _ _ => le_trans⟩
  exact List.pairwise_insertionSort _ l

end

theorem captureName_inj {tag : Text} {k k' : ℕ} (h : captureName tag k = captureName tag k') :
    k = k' := by
  unfold captureName at h
  rw [List.append_cancel_right_eq, List.append_cancel_left_eq] at h
  exact showNat_injective h

/-- Up to nine the names are in the order of the runs. -/
theorem captureName_le {tag : Text} (htag : tag = "RS".toList ∨ tag = "WS".toList) :
    ∀ k < 10, ∀ k' < 10, k ≤ k' → captureName tag k ≤ captureName tag k' := by
  rcases htag with rfl | rfl
  · decide +kernel
  · decide +kernel

/-- The second run comes after the first one and after the tenth. -/
theorem captureName_two {tag : Text} (htag : tag = "RS".toList ∨ tag = "WS".toList) :
    ¬ captureName tag 2 ≤ captureName tag 1 ∧ ¬ captureName tag 2 ≤ captureName tag 10 := by
  rcases htag with rfl | rfl
  · decide +kernel
  · decide +kernel

theorem mem_files {t : Test u} {captures : ℕ → Capture} {file : Text × Capture} :
    file ∈ t.files captures ↔
      ∃ k, 1 ≤ k ∧ k ≤ t.runs ∧ file = (captureName t.tag k, captures k) := by
  simp only [Test.files, List.mem_map, List.mem_range'_1]
  constructor
  · rintro ⟨k, hk, rfl⟩
    exact ⟨k, hk.1, by omega, rfl⟩
  · rintro ⟨k, hk, hle, rfl⟩
    exact ⟨k, ⟨hk, by omega⟩, rfl⟩

/-- Up to nine captures the sorted files are those of the runs, in order. -/
theorem sortBy_files {t : Test u} {captures : ℕ → Capture} (hruns : t.runs ≤ 9)
    {files : List (Text × Capture)} (h : files.Perm (t.files captures)) :
    sortBy Prod.fst files = t.files captures := by
  have hsorted : (t.files captures).Pairwise fun a b => a.1 ≤ b.1 := by
    rw [Test.files, List.pairwise_map]
    refine List.Pairwise.imp_of_mem (fun {k k'} hk hk' hlt => ?_) (List.pairwise_lt_range' 1)
    rw [List.mem_range'_1] at hk hk'
    exact captureName_le t.tag_mem k (by omega) k' (by omega) (by omega)
  refine ((perm_sortBy Prod.fst files).trans h).eq_of_pairwise ?_ (pairwise_sortBy Prod.fst files) hsorted
  intro a b ha hb hab hba
  obtain ⟨k, -, -, rfl⟩ := mem_files.mp (h.subset ((perm_sortBy Prod.fst files).subset ha))
  obtain ⟨k', -, -, rfl⟩ := mem_files.mp hb
  rw [captureName_inj (le_antisymm hab hba)]

theorem folderRows_eq {t : Test u} {captures : ℕ → Capture} {f : Folder} (hruns : t.runs ≤ 9)
    (h : FolderOf t captures f) : folderRows t.info f = expectedRows t captures := by
  have htail : (t.files captures).tail =
      (List.range' 2 (t.runs - 1)).map fun run => (captureName t.tag run, captures run) := by
    rw [Test.files, ← List.map_tail, List.tail_range']
  have hzip : ∀ (n start : ℕ), ((List.range' start n).map fun run =>
      (captureName t.tag run, captures run)).zipIdx start =
      (List.range' start n).map fun run => ((captureName t.tag run, captures run), run) := by
    intro n
    induction n with
    | zero => exact fun _ => rfl
    | succ n ih =>
      intro start
      rw [List.range'_succ, List.map_cons, List.zipIdx_cons, ih, List.map_cons]
  rw [folderRows, sortBy_files hruns h.files, htail, hzip, List.flatMap_map, expectedRows]

/-! ### All folders -/

/-- The information of a folder; nothing where its name is not valid. -/
def folderInfo (u : UnicodeData) (f : Folder) : TestInfo :=
  (parseTestFolder u f.name).getD ⟨[], [], 0, [], 0⟩

section
variable {tests : List (Test u)} {captures : Text → ℕ → Capture} {folders : List Folder}

theorem folderInfo_eq {t : Test u} {captures : ℕ → Capture} {f : Folder} (h : FolderOf t captures f) :
    folderInfo u f = t.info ∧ ValidFolder u f t.info ∧ (f.csvFiles ≠ [] ↔ 0 < t.runs) := by
  have hvalid : parseTestFolder u f.name = some t.info := by
    rw [h.name_eq]
    exact t.valid
  refine ⟨by rw [folderInfo, hvalid, Option.getD_some], ⟨?_, hvalid⟩, ?_⟩
  · rw [h.name_eq]
    exact t.prefixed
  · rw [← List.length_pos_iff, h.files.length_eq, Test.files, List.length_map, List.length_range']

/-- The folders of the tests write the files of the tests. -/
theorem map_outFilename (h : List.Forall₂ (fun t f => FolderOf t (captures t.name) f) tests folders) :
    (folders.filter fun f => f.csvFiles ≠ []).map (fun f => outFilename (folderInfo u f)) =
      (tests.filter fun t => 0 < t.runs).map fun t => outFilename t.info := by
  induction h with
  | nil => rfl
  | @cons t f tests folders hf _ ih =>
    obtain ⟨hinfo, -, hruns⟩ := folderInfo_eq hf
    by_cases hpos : 0 < t.runs
    · rw [List.filter_cons_of_pos (by simpa using hruns.mpr hpos),
        List.filter_cons_of_pos (by simpa using hpos), List.map_cons, List.map_cons, ih, hinfo]
    · rw [List.filter_cons_of_neg (by simpa using mt hruns.mp hpos),
        List.filter_cons_of_neg (by simpa using hpos), ih]

/-- Where no two tests write the same file, the output has the rows of all
folders. -/
theorem processAll_rows (h : List.Forall₂ (fun t f => FolderOf t (captures t.name) f) tests folders)
    (hnd : ((tests.filter fun t => 0 < t.runs).map fun t => outFilename t.info).Nodup) :
    ∃ output, processAll u folders = some output ∧
      (output.items.flatMap Prod.snd).Perm
        (folders.flatMap fun f => folderRows (folderInfo u f) f) := by
  have hvalid : ∀ f ∈ folders, ValidFolder u f (folderInfo u f) := fun f hf => by
    obtain ⟨t, -, hof⟩ := exists_of_forall₂_mem h hf
    obtain ⟨hinfo, hvalid, -⟩ := folderInfo_eq hof
    rw [hinfo]
    exact hvalid
  have hall : (folders.filter fun f => "baremetal_cci_TEST_TYPE_".toList.isPrefixOf f.name) =
      folders := List.filter_eq_self.mpr fun f hf =>
    List.isPrefixOf_iff_prefix.mpr (hvalid f hf).1
  have hperm := perm_sortBy Folder.name folders
  obtain ⟨output, hout, hitems⟩ := foldlM_processTestFolder (u := u) .empty
    (fun f hf => hvalid f (hperm.subset hf)) (by
      show ((sortBy Folder.name folders).filter _ |>.map _).Nodup
      rw [((hperm.filter _).map _).nodup_iff, map_outFilename h]
      exact hnd)
  refine ⟨output, by rw [processAll, hall]; exact hout, ?_⟩
  rw [hitems]
  exact hperm.flatMap_right _

theorem flatMap_folderRows (h : List.Forall₂ (fun t f => FolderOf t (captures t.name) f) tests folders)
    (hruns : ∀ t ∈ tests, t.runs ≤ 9) :
    (folders.flatMap fun f => folderRows (folderInfo u f) f) =
      tests.flatMap fun t => expectedRows t (captures t.name) := by
  induction h with
  | nil => rfl
  | @cons t f tests folders hf _ ih =>
    rw [List.flatMap_cons, List.flatMap_cons, (folderInfo_eq hf).1,
      folderRows_eq (hruns t List.mem_cons_self) hf,
      ih fun t' ht' => hruns t' (List.mem_cons_of_mem t ht')]

end

/-- Files written for different information only are different files. -/
theorem nodup_outFilename (tests : List (Test u)) :
    (tests.map fun t => outFilename t.info).Nodup ↔ tests.Pairwise fun t t' => t.info ≠ t'.info := by
  rw [List.Nodup, List.pairwise_map]
  refine List.Pairwise.iff fun {t t'} => not_congr ⟨fun h => ?_, fun h => by rw [h]⟩
  exact outFilename_inj (shape_of_valid t.valid) (shape_of_valid t'.valid) h

/-! ### Ten captures -/

/-- A capture with one request and its response a cycle later, for both types
of snoop. -/
def oneCapture : Capture :=
  let row : Row := fun column =>
    if column = "design_1_i/system_ila_0/inst/SLOT_0_ACEMM_arvalid_1".toList then "SEND_AR".toList
    else if column = "design_1_i/system_ila_0/inst/SLOT_0_ACEMM_awvalid_1".toList then "SEND_AW".toList
    else "1".toList
  [row, row]

theorem latenciesOf_oneCapture {info : TestInfo} (h : Shape info) : latenciesOf info oneCapture = [1] := by
  have hone : ∀ id ∈ [1, 2], ((snoopConfig id).elim [] fun cfg => calcLatencies cfg oneCapture) = [1] := by
    decide +kernel
  rcases h.snoop with ⟨h, -⟩ | ⟨h, -⟩
  · exact hone _ (h ▸ List.mem_cons_self)
  · exact hone _ (h ▸ List.mem_cons_of_mem _ List.mem_cons_self)

theorem latenciesOf_nil {info : TestInfo} (h : Shape info) : latenciesOf info [] = [] := by
  obtain ⟨cfg, hcfg⟩ := exists_snoopConfig h
  rw [latenciesOf, hcfg]
  rfl

/-- The capture of the second run of one test; all others are empty. -/
def onlySecond (name : Text) : Text → ℕ → Capture := fun name' run =>
  if name' = name ∧ run = 2 then oneCapture else []

/-- From ten captures on the second file of the sorted ones is not that of the
second run. -/
theorem second_ne {t : Test u} {captures : ℕ → Capture} (hruns : 10 ≤ t.runs)
    {files : List (Text × Capture)} (h : files.Perm (t.files captures)) :
    (sortBy Prod.fst files).tail.head?.map Prod.fst ≠ some (captureName t.tag 2) := by
  have hmem : ∀ k, 1 ≤ k → k ≤ 10 → (captureName t.tag k, captures k) ∈ sortBy Prod.fst files :=
    fun k hk hle => ((perm_sortBy Prod.fst files).trans h).symm.subset (mem_files.mpr ⟨k, hk, by omega, rfl⟩)
  have hsorted := pairwise_sortBy Prod.fst files
  match hfiles : sortBy Prod.fst files with
  | [] => exact fun h => by cases h
  | [_] => exact fun h => by cases h
  | first :: second :: rest =>
    intro hsecond
    replace hsecond : second.1 = captureName t.tag 2 := Option.some.inj hsecond
    rw [hfiles] at hmem hsorted
    -- what comes before the second run's file can only be the first one
    have hfirst : ∀ k, 1 ≤ k → k ≤ 10 → ¬ captureName t.tag 2 ≤ captureName t.tag k →
        (captureName t.tag k, captures k) = first := by
      intro k hk hle hnot
      rcases List.mem_cons.mp (hmem k hk hle) with heq | hmem
      · exact heq
      · refine absurd ?_ hnot
        rw [← hsecond]
        rcases List.mem_cons.mp hmem with rfl | hmem
        · exact le_refl _
        · exact (List.pairwise_cons.mp (List.pairwise_cons.mp hsorted).2).1 _ hmem
    have hne := captureName_two t.tag_mem
    have heq : (captureName t.tag 1, captures 1) = (captureName t.tag 10, captures 10) :=
      (hfirst 1 (by omega) (by omega) hne.1).trans (hfirst 10 (by omega) (by omega) hne.2).symm
    exact absurd (captureName_inj (Prod.ext_iff.mp heq).1) (by decide)

/-- With ten captures of a test the latencies of its second run are lost. -/
theorem runs_le {tests : List (Test u)} (h : Extracted tests) {t : Test u} (ht : t ∈ tests) :
    t.runs ≤ 9 := by
  by_contra hruns
  obtain ⟨hrows, hnd⟩ := h
  let captures := onlySecond t.name
  let folders := tests.map fun t' => Folder.mk t'.name (t'.files (captures t'.name))
  have hfolders : List.Forall₂ (fun t' f => FolderOf t' (captures t'.name) f) tests folders :=
    List.forall₂_map_right_iff.mpr (List.forall₂_same.mpr fun t' _ => ⟨rfl, List.Perm.refl _⟩)
  obtain ⟨output, hout, hperm⟩ := hrows captures folders hfolders
  obtain ⟨output', hout', hperm'⟩ := processAll_rows hfolders hnd
  obtain rfl := Option.some.inj (hout.symm.trans hout')
  have hshape := shape_of_valid t.valid
  -- the row of the second run is to be there
  have hmem : OutRow.mk 2 1 1 t.info.interference t.info.snoopType t.info.channels t.info.coherency ∈
      tests.flatMap fun t' => expectedRows t' (captures t'.name) := by
    refine List.mem_flatMap.mpr ⟨t, ht, List.mem_flatMap.mpr ⟨2, ?_, ?_⟩⟩
    · exact List.mem_range'_1.mpr (by omega)
    · show _ ∈ transactions t.info 2 (latenciesOf t.info (onlySecond t.name t.name 2))
      rw [onlySecond, if_pos ⟨rfl, rfl⟩, latenciesOf_oneCapture hshape]
      exact List.mem_cons_self
  obtain ⟨f, hf, hrow⟩ := List.mem_flatMap.mp (hperm'.subset (hperm.symm.subset hmem))
  obtain ⟨t', ht', rfl⟩ := List.mem_map.mp hf
  have hof : FolderOf t' (captures t'.name) ⟨t'.name, t'.files (captures t'.name)⟩ :=
    ⟨rfl, List.Perm.refl _⟩
  rw [(folderInfo_eq hof).1] at hrow
  obtain ⟨⟨file, run⟩, hfile, hrow⟩ := List.mem_flatMap.mp hrow
  obtain ⟨l, hl, hrow⟩ := List.mem_map.mp hrow
  -- it is that of the file that comes second
  obtain rfl : run = 2 := (OutRow.mk.injEq .. ▸ hrow).1
  have hget : (sortBy Prod.fst (t'.files (captures t'.name))).tail[0]? = some file :=
    List.mk_add_mem_zipIdx_iff_getElem?.mp hfile
  rw [← List.head?_eq_getElem?] at hget
  obtain ⟨k, hk, hle, rfl⟩ := mem_files.mp
    ((perm_sortBy _ _).subset (List.mem_of_mem_tail (List.mem_of_mem_head? hget)))
  -- and only the second run of this test has a latency at all
  have hname : t'.name = t.name ∧ k = 2 := by
    by_contra hne
    have hcapture : captures t'.name k = [] := if_neg hne
    rw [hcapture, latenciesOf_nil (shape_of_valid t'.valid)] at hl
    cases hl
  obtain ⟨hname, rfl⟩ := hname
  have hinfo : t'.info = t.info := by
    have hvalid := t'.valid
    rw [hname, t.valid] at hvalid
    exact (Option.some.inj hvalid).symm
  have hran : ∀ t' ∈ tests, 0 < t'.runs → t' ∈ tests.filter fun t => 0 < t.runs :=
    fun t' ht' hpos => List.mem_filter.mpr ⟨ht', decide_eq_true hpos⟩
  obtain rfl : t' = t := List.inj_on_of_nodup_map hnd (hran t' ht' (by omega)) (hran t ht (by omega))
    (by rw [hinfo])
  have hne := second_ne (by omega) (List.Perm.refl (t'.files (captures t'.name)))
  exact hne (by rw [hget, Option.map_some])

/-- **Main result.** Whatever the captures hold, the output has the latencies
of every run from the second on, iff no test has more than nine captures and
no two folders are of tests with the same parameters. -/
theorem extracted_iff (tests : List (Test u)) : Extracted tests ↔
    (∀ t ∈ tests, t.runs ≤ 9) ∧
      (tests.filter fun t => 0 < t.runs).Pairwise fun t t' => t.info ≠ t'.info := by
  rw [← nodup_outFilename]
  constructor
  · intro h
    exact ⟨fun t ht => runs_le h ht, h.2⟩
  · rintro ⟨hruns, hnd⟩
    refine ⟨fun captures folders h => ?_, hnd⟩
    obtain ⟨output, hout, hrows⟩ := processAll_rows h hnd
    rw [flatMap_folderRows h hruns] at hrows
    exact ⟨output, hout, hrows⟩

/-- A test of reading snoops without interference, on so many CPUs. -/
def soloFolder (cpus : Text) (runs : ℕ)
    (valid : parseTestFolder asciiData ("baremetal_cci_TEST_TYPE_SOLO_snoop1_ch0_coh0_C".toList ++ cpus) =
      some ⟨"solo".toList, "read".toList, 0, "non_coherent".toList, 1⟩) : Test asciiData where
  name := "baremetal_cci_TEST_TYPE_SOLO_snoop1_ch0_coh0_C".toList ++ cpus
  info := ⟨"solo".toList, "read".toList, 0, "non_coherent".toList, 1⟩
  tag := "RS".toList
  runs := runs
  prefixed := ⟨"SOLO_snoop1_ch0_coh0_C".toList ++ cpus, by
    have h : "baremetal_cci_TEST_TYPE_SOLO_snoop1_ch0_coh0_C".toList =
      "baremetal_cci_TEST_TYPE_".toList ++ "SOLO_snoop1_ch0_coh0_C".toList := by decide +kernel
    rw [h, List.append_assoc]⟩
  valid := valid
  tag_mem := .inl rfl

/-- Ten captures lose the second run's, and the tests on one CPU and on two
write one file. -/
theorem not_extracted :
    ¬ Extracted [soloFolder "1".toList 10 (by decide +kernel)] ∧
    ¬ Extracted [soloFolder "1".toList 2 (by decide +kernel),
      soloFolder "2".toList 2 (by decide +kernel)] := by
  constructor
  · intro h
    exact absurd (runs_le h List.mem_cons_self) (by decide)
  · intro h
    refine absurd ((nodup_outFilename _).mp h.2) fun hpairwise => ?_
    exact (List.pairwise_cons.mp hpairwise).1 _ List.mem_cons_self rfl

end Scripts
end DaatMcs
