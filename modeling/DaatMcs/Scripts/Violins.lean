/-
# From latencies to violins

`q95_q99.py` reads the files `ila_waves_info.py` has written, and writes of
each the rows up to two quantiles of its latencies into files of their own.
`gen_plot.py` draws for each filter, access and coherency the latencies of the
files, one violin for each configuration.

From the folders of the tests to the violins, every test is drawn under its
own label, whatever order the files are listed in, iff it is without
interference or has 1, 2, 4 or 8 channels, no two tests of an access and a
coherency have one label, and there are not exactly three of any
(`drawn_iff`): the trend line of three raises. The order of the captures, which
gives wrong numbers to the runs from ten on, makes no difference here.
-/
import DaatMcs.Scripts.ViolinNames
import Mathlib.Algebra.Order.Field.Rat
import Mathlib.Data.Rat.Floor
import Mathlib.Tactic.Linarith

namespace DaatMcs
namespace Violins

open Scripts

/-! ### The scripts -/

/-- A file of rows; none where it has no columns, as the one of a frame made
of no rows. -/
abbrev Csv := Option (List OutRow)

/-- `pd.DataFrame(all_transactions).to_csv`. -/
def toCsv (rows : List OutRow) : Csv := if rows = [] then none else some rows

section
variable (quantile : ℚ → List ℕ → ℚ)

/-- The rows up to a quantile of their latencies. -/
def upTo (q : ℚ) (df : List OutRow) : List OutRow :=
  df.filter fun row => (row.latencyCycles : ℚ) ≤ quantile q (df.map OutRow.latencyCycles)

/-- `process_file`, on what is in the directory it writes to; a file without
columns is an error. -/
def processFile (outputDir : Dict Text Csv) (file : Text × Csv) : Option (Dict Text Csv) := do
  let df ← file.2
  let name := splitextRoot file.1
  let outputDir := outputDir.insert (name ++ "_q95.csv".toList) (some (upTo quantile (95 / 100) df))
  return outputDir.insert (name ++ "_q99.csv".toList) (some (upTo quantile (99 / 100) df))

/-- `main` of `q95_q99.py`, over the files in the order `glob` lists them. -/
def processFiles (csvFiles : List (Text × Csv)) : Option (Dict Text Csv) :=
  csvFiles.foldlM (processFile quantile) .empty

end

/-- `load_data`, over the files in the order `glob` lists them. -/
def loadData (mode : Mode) (access coh : Text) (files : List (Text × Csv)) :
    Option (Dict (Option Text) (List ℕ)) :=
  files.foldlM (fun data f => do
    let (m, a, c, cfg) ← parseName f.1
    if m ≠ mode ∨ a ≠ access ∨ c ≠ coh then return data
    let df ← f.2
    return data.insert cfg (df.map OutRow.latencyCycles)) .empty

/-- `ORDER` -/
def order : List Text :=
  ["solo".toList, "1ch".toList, "1ch+fpga".toList, "2ch".toList, "2ch+fpga".toList, "4ch".toList,
    "4ch+fpga".toList, "8ch".toList, "8ch+fpga".toList]

/-- The loop of `plot`: the violins, each with its label; one of no values is an
error. -/
def bodies (data : Dict (Option Text) (List ℕ)) : Option (List (Text × List ℕ)) :=
  order.filterMap (fun label => (data.get? (some label)).map fun values => (label, values)) |>.mapM
    fun v => if v.2 = [] then none else some v

/-- What `plot` draws. From three means on there is a trend line, a cubic
spline; through three alone `make_interp_spline` raises, before anything is
saved. -/
def plot (data : Dict (Option Text) (List ℕ)) : Option (List (Text × List ℕ)) :=
  (bodies data).bind fun vs => if vs.length = 3 then none else some vs

/-- A turn of the main loop, with `parsed_results` and `quantiles_results` as
`glob` lists them. -/
def violins (parsedResults quantilesResults : List (Text × Csv)) (mode : Mode) (access coh : Text) :
    Option (List (Text × List ℕ)) :=
  (loadData mode access coh (if mode = .raw then parsedResults else quantilesResults)).bind plot

/-! ### What is to be drawn -/

/-- The configuration of a test, by its name in `ORDER`. -/
def label (info : TestInfo) : Text :=
  if info.interference = "solo".toList then "solo".toList
  else showNat info.channels ++ "ch".toList ++
    if info.interference = "dma+fpga_interf".toList then "+fpga".toList else []

/-- The access and coherency that a test is drawn for, and its label. -/
def shownAs (info : TestInfo) : Text × Text × Text := (info.snoopType, info.coherency, label info)

/-- What `quantile` of pandas is relied on for: the order of the values makes
no difference, and the least of them is not above the result. -/
structure IsQuantile (quantile : ℚ → List ℕ → ℚ) : Prop where
  perm : ∀ q l l', l.Perm l' → quantile q l = quantile q l'
  least : ∀ (q : ℚ) (l : List ℕ), 0 ≤ q → q ≤ 1 → l ≠ [] → ∃ x ∈ l, (x : ℚ) ≤ quantile q l

variable {u : UnicodeData} (quantile : ℚ → List ℕ → ℚ)

/-- The tests of a plot. -/
def testsOf (tests : List (Test u)) (access coh : Text) : List (Test u) :=
  tests.filter fun t => t.info.snoopType = access ∧ t.info.coherency = coh

/-- The latencies that a mode is to keep. -/
def kept (mode : Mode) (l : List ℕ) : List ℕ :=
  match mode with
  | .raw => l
  | .q95 => l.filter fun x : ℕ => (x : ℚ) ≤ quantile (95 / 100) l
  | .q99 => l.filter fun x : ℕ => (x : ℚ) ≤ quantile (99 / 100) l

/-- The latencies of a test: those of its runs from the second on. -/
def latencies (t : Test u) (captures : Text → ℕ → Capture) : List ℕ :=
  (expectedRows t (captures t.name)).map OutRow.latencyCycles

/-- Every test of an access and a coherency is drawn with its latencies, and
nothing else is. -/
structure Shows (tests : List (Test u)) (captures : Text → ℕ → Capture) (mode : Mode) (access coh : Text)
    (vs : List (Text × List ℕ)) : Prop where
  all : ∀ t ∈ tests, t.info.snoopType = access → t.info.coherency = coh →
    ∃ values, (label t.info, values) ∈ vs ∧ values.Perm (kept quantile mode (latencies t captures))
  only : ∀ v ∈ vs, ∃ t ∈ tests, t.info.snoopType = access ∧ t.info.coherency = coh ∧ label t.info = v.1 ∧
    v.2.Perm (kept quantile mode (latencies t captures))

/-- Whatever the captures hold and `glob` lists first, if there is a latency
of every test: the scripts, run one after the other, draw what they are to. -/
def Drawn (tests : List (Test u)) : Prop :=
  ∀ (captures : Text → ℕ → Capture) (folders : List Folder),
    List.Forall₂ (fun t f => FolderOf t (captures t.name) f) tests folders →
    (∀ t ∈ tests, latencies t captures ≠ []) →
    ∃ output, processAll u folders = some output ∧
      ∀ parsedResults : List (Text × Csv),
        parsedResults.Perm (output.items.map fun f => (f.1, toCsv f.2)) →
        ∃ filtered, processFiles quantile parsedResults = some filtered ∧
          ∀ quantilesResults : List (Text × Csv), quantilesResults.Perm filtered.items →
            ∀ mode access coh, ∃ vs, violins parsedResults quantilesResults mode access coh = some vs ∧
              Shows quantile tests captures mode access coh vs

/-! ### The latencies of a test -/

/-- The name of the first capture comes before those of the others. -/
theorem captureName_one_le (tag : Text) {k : ℕ} (hk : 1 ≤ k) : captureName tag 1 ≤ captureName tag k := by
  have hdigits : ∀ n, 1 ≤ n → ∃ d ds, showNat n = d :: ds ∧ '1' ≤ d := by
    intro n
    induction n using Nat.strongRecOn with
    | ind n ih =>
      intro hn
      by_cases hlt : n < 10
      · have hall : ∀ n < 10, 1 ≤ n → ∃ d, showNat n = [d] ∧ '1' ≤ d := by
          intro n hlt hn
          refine ⟨Nat.digitChar n, Nat.toDigits_of_lt_base hlt, ?_⟩
          revert n
          decide
        obtain ⟨d, hd, hle⟩ := hall n hlt hn
        exact ⟨d, [], hd, hle⟩
      · obtain ⟨d, ds, hds, hle⟩ := ih (n / 10) (by omega) (by omega)
        refine ⟨d, ds ++ [Nat.digitChar (n % 10)], ?_, hle⟩
        rw [showNat, Nat.toDigits_eq_if (by decide), if_neg hlt]
        show showNat (n / 10) ++ _ = _
        rw [hds, List.cons_append]
  obtain ⟨d, ds, hds, hle⟩ := hdigits k hk
  have hrest : ".csv".toList = ds ++ ".csv".toList ∨ List.Lex (· < ·) ".csv".toList (ds ++ ".csv".toList) := by
    cases ds with
    | nil => exact .inl rfl
    | cons c ds =>
      have hmem : c ∈ showNat k := hds ▸ List.mem_cons_of_mem d List.mem_cons_self
      have hdot : ('.').toNat < c.toNat :=
        lt_of_lt_of_le (by decide) (toNat_of_isDigit (digit_of_mem_showNat hmem)).1
      exact .inr (.rel hdot)
  have hone : captureName tag 1 = (tag ++ "_capture_run".toList) ++ '1' :: ".csv".toList := by
    rw [captureName, List.append_assoc]
    rfl
  rw [hone, captureName, hds, List.append_assoc (_ ++ _), List.cons_append]
  rcases lt_or_eq_of_le hle with hlt | rfl
  · exact le_of_lt (List.Lex.append_left _ (.rel hlt) _)
  · rcases hrest with heq | hlex
    · exact le_of_eq (congrArg _ (congrArg _ heq))
    · exact le_of_lt (List.Lex.append_left _ (.cons hlex) _)

/-- What the script sorts first is the first run, so it leaves out that one. -/
theorem tail_sortBy_files {t : Test u} {captures : ℕ → Capture} (hruns : 0 < t.runs)
    {files : List (Text × Capture)} (h : files.Perm (t.files captures)) :
    (sortBy Prod.fst files).tail.Perm ((List.range' 2 (t.runs - 1)).map fun run =>
      (captureName t.tag run, captures run)) := by
  obtain ⟨n, hn⟩ := Nat.exists_eq_add_of_lt hruns
  have hfiles : t.files captures = (captureName t.tag 1, captures 1) ::
      (List.range' 2 (t.runs - 1)).map fun run => (captureName t.tag run, captures run) := by
    rw [Test.files, hn, Nat.zero_add, List.range'_succ, List.map_cons, Nat.add_sub_cancel]
  have hperm := (perm_sortBy Prod.fst files).trans h
  have hsorted := pairwise_sortBy Prod.fst files
  cases hs : sortBy Prod.fst files with
  | nil =>
    rw [hs, hfiles] at hperm
    exact absurd hperm.length_eq (by simp)
  | cons first rest =>
    rw [hs] at hperm hsorted
    -- the first file is at the front: it is not above any of the others
    have hfirst : first = (captureName t.tag 1, captures 1) := by
      have hmem : (captureName t.tag 1, captures 1) ∈ first :: rest :=
        hperm.symm.subset (hfiles ▸ List.mem_cons_self)
      obtain ⟨k, hk, -, rfl⟩ := mem_files.mp (hperm.subset List.mem_cons_self)
      rcases List.mem_cons.mp hmem with heq | hmem
      · exact heq.symm
      · have hle := (List.pairwise_cons.mp hsorted).1 _ hmem
        rw [captureName_inj (le_antisymm hle (captureName_one_le t.tag hk))]
    rw [hfirst, hfiles] at hperm
    exact hperm.cons_inv

theorem map_transactions (info : TestInfo) (run : ℕ) (l : List ℕ) :
    (transactions info run l).map OutRow.latencyCycles = l := by
  rw [transactions, List.map_map]
  exact List.zipIdx_map_fst 1 l

theorem latencies_eq (t : Test u) (captures : Text → ℕ → Capture) : latencies t captures =
    (List.range' 2 (t.runs - 1)).flatMap fun run => latenciesOf t.info (captures t.name run) := by
  rw [latencies, expectedRows, List.map_flatMap]
  simp only [map_transactions]

/-- The rows written for a test have its latencies. -/
theorem perm_latencies {t : Test u} {captures : Text → ℕ → Capture} (hruns : 0 < t.runs) {f : Folder}
    (h : FolderOf t (captures t.name) f) :
    ((folderRows t.info f).map OutRow.latencyCycles).Perm (latencies t captures) := by
  have hzip : ∀ (l : List (Text × Capture)) (n : ℕ), (l.zipIdx n).flatMap (fun x => latenciesOf t.info x.1.2) =
      l.flatMap fun x => latenciesOf t.info x.2 := by
    intro l
    induction l with
    | nil => exact fun _ => rfl
    | cons x l ih =>
      intro n
      rw [List.zipIdx_cons, List.flatMap_cons, List.flatMap_cons, ih]
  rw [latencies_eq, folderRows, List.map_flatMap]
  simp only [map_transactions, hzip]
  have hperm := (tail_sortBy_files hruns h.files).flatMap_right fun x => latenciesOf t.info x.2
  rwa [List.flatMap_map] at hperm

/-! ### The files of the tests -/

/-- The rows a mode keeps. -/
def filtered (mode : Mode) (df : List OutRow) : List OutRow :=
  match mode with
  | .raw => df
  | .q95 => upTo quantile (95 / 100) df
  | .q99 => upTo quantile (99 / 100) df

/-- The files of a mode, for tests with their rows. -/
def filesOf (entries : List (Test u × List OutRow)) (mode : Mode) : List (Text × Csv) :=
  entries.map fun e => (csvName e.1.info mode.suffix, some (filtered quantile mode e.2))

theorem map_filtered (mode : Mode) (df : List OutRow) :
    (filtered quantile mode df).map OutRow.latencyCycles = kept quantile mode (df.map OutRow.latencyCycles) := by
  cases mode with
  | raw => rfl
  | q95 =>
    rw [kept, List.filter_map]
    rfl
  | q99 =>
    rw [kept, List.filter_map]
    rfl

variable {quantile} in
theorem kept_perm (hq : IsQuantile quantile) (mode : Mode) {l l' : List ℕ} (h : l.Perm l') :
    (kept quantile mode l).Perm (kept quantile mode l') := by
  cases mode with
  | raw => exact h
  | q95 =>
    rw [kept, kept, hq.perm _ _ _ h]
    exact h.filter _
  | q99 =>
    rw [kept, kept, hq.perm _ _ _ h]
    exact h.filter _

variable {quantile} in
/-- A filter keeps the least latency. -/
theorem kept_ne_nil (hq : IsQuantile quantile) (mode : Mode) {l : List ℕ} (h : l ≠ []) :
    kept quantile mode l ≠ [] := by
  have hfilter : ∀ q : ℚ, 0 ≤ q → q ≤ 1 → (l.filter fun x : ℕ => (x : ℚ) ≤ quantile q l) ≠ [] := by
    intro q h0 h1
    obtain ⟨x, hx, hle⟩ := hq.least q l h0 h1 h
    exact List.ne_nil_of_mem (List.mem_filter.mpr ⟨hx, decide_eq_true hle⟩)
  cases mode with
  | raw => exact h
  | q95 => exact hfilter _ (by norm_num) (by norm_num)
  | q99 => exact hfilter _ (by norm_num) (by norm_num)

/-- The folders of the tests, each by its test and the rows written for it. -/
theorem exists_entries {tests : List (Test u)} {captures : Text → ℕ → Capture} {folders : List Folder}
    (h : List.Forall₂ (fun t f => FolderOf t (captures t.name) f) tests folders)
    (hruns : ∀ t ∈ tests, 0 < t.runs) :
    ∃ entries : List (Test u × List OutRow), entries.map Prod.fst = tests ∧
      (∀ e ∈ entries, (e.2.map OutRow.latencyCycles).Perm (latencies e.1 captures)) ∧
      (folders.map fun f => (outFilename (folderInfo u f), folderRows (folderInfo u f) f)) =
        entries.map fun e => (outFilename e.1.info, e.2) := by
  induction h with
  | nil => exact ⟨[], rfl, by simp, rfl⟩
  | @cons t f tests folders hf _ ih =>
    obtain ⟨entries, hfst, hperm, hmap⟩ := ih fun t' ht' => hruns t' (List.mem_cons_of_mem t ht')
    refine ⟨(t, folderRows t.info f) :: entries, by rw [List.map_cons, hfst], ?_, ?_⟩
    · rintro e he
      rcases List.mem_cons.mp he with rfl | he
      · exact perm_latencies (hruns t List.mem_cons_self) hf
      · exact hperm e he
    · rw [List.map_cons, List.map_cons, hmap, (folderInfo_eq hf).1]

/-- `ila_waves_info.py` writes the files of the tests. -/
theorem processAll_files {tests : List (Test u)} {captures : Text → ℕ → Capture} {folders : List Folder}
    (h : List.Forall₂ (fun t f => FolderOf t (captures t.name) f) tests folders)
    (hruns : ∀ t ∈ tests, 0 < t.runs) (hinfo : tests.Pairwise fun t t' => t.info ≠ t'.info) :
    ∃ output, processAll u folders = some output ∧
      ∃ entries : List (Test u × List OutRow), entries.map Prod.fst = tests ∧
        (∀ e ∈ entries, (e.2.map OutRow.latencyCycles).Perm (latencies e.1 captures)) ∧
        output.items.Perm (entries.map fun e => (outFilename e.1.info, e.2)) := by
  obtain ⟨entries, hfst, hlat, hmap⟩ := exists_entries h hruns
  have hof : ∀ f ∈ folders, ValidFolder u f (folderInfo u f) ∧ f.csvFiles ≠ [] := fun f hf => by
    obtain ⟨t, ht, hof⟩ := exists_of_forall₂_mem h hf
    obtain ⟨hinfo, hvalid, hne⟩ := folderInfo_eq hof
    exact ⟨hinfo ▸ hvalid, hne.mpr (hruns t ht)⟩
  have hall : (folders.filter fun f => "baremetal_cci_TEST_TYPE_".toList.isPrefixOf f.name) = folders :=
    List.filter_eq_self.mpr fun f hf => List.isPrefixOf_iff_prefix.mpr (hof f hf).1.1
  have hperm := perm_sortBy Folder.name folders
  let entry : Folder → Text × List OutRow := fun f => (outFilename (folderInfo u f), folderRows (folderInfo u f) f)
  have hloop : (sortBy Folder.name folders).foldlM (processTestFolder u) .empty =
      some (Dict.empty.update ((sortBy Folder.name folders).flatMap fun f => [entry f])) :=
    Dict.foldlM_update (fun f hf d => by
      obtain ⟨hvalid, hne⟩ := hof f (hperm.subset hf)
      rw [processTestFolder_eq hvalid, if_neg hne]
      rfl) .empty
  rw [← List.map_eq_flatMap] at hloop
  have hentries := (hperm.map entry).trans (List.Perm.of_eq hmap)
  have hnodup : (((sortBy Folder.name folders).map entry).map Prod.fst).Nodup := by
    have hnames : (tests.map fun t => outFilename t.info).Nodup := (nodup_outFilename tests).mpr hinfo
    rw [(hentries.map Prod.fst).nodup_iff, List.map_map]
    rw [← hfst, List.map_map] at hnames
    exact hnames
  refine ⟨_, by rw [processAll, hall]; exact hloop, entries, hfst, hlat, ?_⟩
  rw [show Dict.empty.update ((sortBy Folder.name folders).map entry) = Dict.ofList _ from rfl,
    Dict.items_ofList hnodup]
  exact hentries

/-- The names of all files of the tests, raw and filtered, are different. -/
theorem nodup_csvName {entries : List (Test u × List OutRow)}
    (hinfo : (entries.map Prod.fst).Pairwise fun t t' => t.info ≠ t'.info) (mode : Mode) :
    ((filesOf quantile entries mode).map Prod.fst).Nodup := by
  rw [filesOf, List.map_map, List.Nodup, List.pairwise_map]
  rw [List.pairwise_map] at hinfo
  exact hinfo.imp fun {e e'} hne heq =>
    hne (csvName_inj (shape_of_valid e.1.valid) (shape_of_valid e'.1.valid) heq).1

/-- `q95_q99.py` writes the filtered files of the tests. -/
theorem processFiles_files {entries : List (Test u × List OutRow)} {parsedResults : List (Text × Csv)}
    (hperm : parsedResults.Perm (filesOf quantile entries .raw))
    (hinfo : (entries.map Prod.fst).Pairwise fun t t' => t.info ≠ t'.info) :
    ∃ filtered, processFiles quantile parsedResults = some filtered ∧
      filtered.items.Perm (filesOf quantile entries .q95 ++ filesOf quantile entries .q99) := by
  let two : Text × Csv → List (Text × Csv) := fun file =>
    [(splitextRoot file.1 ++ "_q95.csv".toList, some (upTo quantile (95 / 100) (file.2.getD []))),
      (splitextRoot file.1 ++ "_q99.csv".toList, some (upTo quantile (99 / 100) (file.2.getD [])))]
  have hloop : parsedResults.foldlM (processFile quantile) .empty =
      some (Dict.empty.update (parsedResults.flatMap two)) :=
    Dict.foldlM_update (fun file hfile d => by
      obtain ⟨e, -, rfl⟩ := List.mem_map.mp (hperm.subset hfile)
      rfl) .empty
  have htwo : (parsedResults.flatMap two).Perm
      (filesOf quantile entries .q95 ++ filesOf quantile entries .q99) := by
    refine (hperm.flatMap_right two).trans ?_
    rw [filesOf, List.flatMap_map]
    simp only [two, splitextRoot_csvName]
    rw [filesOf, filesOf, List.map_eq_flatMap, List.map_eq_flatMap]
    have happ := List.flatMap_append_perm entries
      (fun e => [(csvName e.1.info Mode.q95.suffix, some (filtered quantile .q95 e.2))])
      (fun e => [(csvName e.1.info Mode.q99.suffix, some (filtered quantile .q99 e.2))])
    exact happ.symm
  have hnodup : ((parsedResults.flatMap two).map Prod.fst).Nodup := by
    rw [(htwo.map Prod.fst).nodup_iff, List.map_append, List.nodup_append]
    refine ⟨nodup_csvName quantile hinfo .q95, nodup_csvName quantile hinfo .q99, ?_⟩
    rintro name hname name' hname' rfl
    simp only [filesOf, List.map_map, List.mem_map] at hname hname'
    obtain ⟨e, -, rfl⟩ := hname
    obtain ⟨e', -, heq⟩ := hname'
    exact absurd (csvName_inj (shape_of_valid e'.1.valid) (shape_of_valid e.1.valid) heq).2 (by decide)
  refine ⟨_, hloop, ?_⟩
  rw [show Dict.empty.update (parsedResults.flatMap two) = Dict.ofList _ from rfl, Dict.items_ofList hnodup]
  exact htwo

/-! ### The plots -/

theorem label_mem_order_iff (info : TestInfo) :
    label info ∈ order ↔ info.interference = "solo".toList ∨ info.channels ∈ [1, 2, 4, 8] := by
  by_cases hsolo : info.interference = "solo".toList
  · have hmem : "solo".toList ∈ order := by decide
    rw [label, if_pos hsolo]
    exact ⟨fun _ => .inl hsolo, fun _ => hmem⟩
  · have hfour : ∀ k ∈ [1, 2, 4, 8], ∀ fpga ∈ ["+fpga".toList, []], showNat k ++ "ch".toList ++ fpga ∈ order := by
      decide
    have hdigits : ∀ l ∈ order, l.takeWhile Char.isDigit = [] ∨
        ∃ k ∈ [1, 2, 4, 8], l.takeWhile Char.isDigit = showNat k := by
      decide
    rw [label, if_neg hsolo, or_iff_right hsolo]
    constructor
    · intro h
      have hnum : (showNat info.channels ++ "ch".toList ++ if info.interference = "dma+fpga_interf".toList then
          "+fpga".toList else []).takeWhile Char.isDigit = showNat info.channels := by
        have hch : "ch".toList = 'c' :: "h".toList := rfl
        rw [List.append_assoc, List.takeWhile_append_of_pos fun c hc => digit_of_mem_showNat hc, hch,
          List.cons_append, List.takeWhile_cons_of_neg (by decide), List.append_nil]
      rcases hdigits _ h with hnil | ⟨k, hk, heq⟩
      · exact absurd (hnum.symm.trans hnil) (showNat_ne_nil _)
      · rwa [showNat_injective (hnum.symm.trans heq)]
    · intro h
      refine hfour _ h _ ?_
      split
      · exact List.mem_cons_self
      · exact List.mem_cons_of_mem _ List.mem_cons_self

/-- What `parse_name` reads off a file of a test that has a label of `ORDER`. -/
theorem parseName_of_label {info : TestInfo} (h : Shape info) (hlabel : label info ∈ order) (mode : Mode) :
    parseName (csvName info mode.suffix) = some (mode, info.snoopType, info.coherency, some (label info)) := by
  have hcfg : ∀ k ∈ [1, 2, 4, 8], channelsCfg k = some (showNat k ++ "ch".toList) := by decide
  rw [parseName_searches h, label]
  by_cases hsolo : info.interference = "solo".toList
  · have hfpga : "solo".toList ≠ "dma+fpga_interf".toList := by decide
    rw [hsolo, if_neg hfpga, if_pos rfl, if_pos rfl]
    rfl
  · have hchannels := hcfg _ ((label_mem_order_iff info).mp hlabel |>.resolve_left hsolo)
    rw [if_neg hsolo, if_neg hsolo, hchannels]
    by_cases hfpga : info.interference = "dma+fpga_interf".toList
    · rw [if_pos hfpga, if_pos hfpga]
      rfl
    · rw [if_neg hfpga, if_neg hfpga, List.append_nil]
      rfl

theorem bodies_eq {data : Dict (Option Text) (List ℕ)} {vs : List (Text × List ℕ)} (h : bodies data = some vs) :
    vs = order.filterMap fun label => (data.get? (some label)).map fun values => (label, values) := by
  have hvs := map_eq_of_mapM h (g := id) (k := id) (by
    intro a b hab
    split at hab
    · cases hab
    · exact (Option.some.inj hab).symm)
  rwa [List.map_id, List.map_id] at hvs

/-- What is drawn under a label. -/
theorem mem_bodies {data : Dict (Option Text) (List ℕ)} {vs : List (Text × List ℕ)} (h : bodies data = some vs)
    {v : Text × List ℕ} : v ∈ vs ↔ v.1 ∈ order ∧ data.get? (some v.1) = some v.2 := by
  rw [bodies_eq h, List.mem_filterMap]
  constructor
  · rintro ⟨l, hl, hv⟩
    obtain ⟨values, hvalues, rfl⟩ := Option.map_eq_some_iff.mp hv
    exact ⟨hl, hvalues⟩
  · rintro ⟨hl, hv⟩
    exact ⟨v.1, hl, by rw [hv]; rfl⟩

/-- No label is drawn twice. -/
theorem nodup_bodies {data : Dict (Option Text) (List ℕ)} {vs : List (Text × List ℕ)} (h : bodies data = some vs) :
    (vs.map Prod.fst).Nodup := by
  have horder : order.Nodup := by decide
  have hfst : (fun l => ((data.get? (some l)).map fun values => (l, values)).map Prod.fst) =
      fun l => if (data.get? (some l)).isSome then some l else none := funext fun l => by
    cases data.get? (some l) <;> rfl
  rw [bodies_eq h, List.map_filterMap, hfst]
  refine horder.filterMap fun a b c ha hb => ?_
  simp only [Option.mem_def, Option.ite_none_right_eq_some, Option.some.injEq] at ha hb
  rw [ha.2, hb.2]

theorem plot_eq_some {data : Dict (Option Text) (List ℕ)} {vs : List (Text × List ℕ)} :
    plot data = some vs ↔ bodies data = some vs ∧ vs.length ≠ 3 := by
  rw [plot, Option.bind_eq_some_iff]
  constructor
  · rintro ⟨vs', hvs, h⟩
    split at h
    · cases h
    · next hlen =>
      obtain rfl := Option.some.inj h
      exact ⟨hvs, hlen⟩
  · rintro ⟨hvs, hlen⟩
    exact ⟨vs, hvs, if_neg hlen⟩

theorem exists_bodies {data : Dict (Option Text) (List ℕ)} (h : ∀ k, data.get? k ≠ some []) :
    ∃ vs, bodies data = some vs := by
  refine ⟨_, mapM_eq_some (g := id) fun v hv => ?_⟩
  obtain ⟨l, -, hv⟩ := List.mem_filterMap.mp hv
  obtain ⟨values, hvalues, rfl⟩ := Option.map_eq_some_iff.mp hv
  exact if_neg fun hnil => h _ (hvalues.trans (congrArg some hnil))

/-- What `load_data` stores for a file it can read. -/
def stored (mode : Mode) (access coh : Text) (f : Text × Csv) : List (Option Text × List ℕ) :=
  match parseName f.1 with
  | some (m, a, c, cfg) =>
    if m ≠ mode ∨ a ≠ access ∨ c ≠ coh then [] else [(cfg, (f.2.getD []).map OutRow.latencyCycles)]
  | none => []

theorem loadData_eq (mode : Mode) (access coh : Text) {files : List (Text × Csv)}
    (h : ∀ f ∈ files, (∃ p, parseName f.1 = some p) ∧ ∃ df, f.2 = some df) :
    loadData mode access coh files = some (Dict.ofList (files.flatMap (stored mode access coh))) := by
  refine Dict.foldlM_update (fun f hf d => ?_) .empty
  obtain ⟨⟨⟨m, a, c, cfg⟩, hp⟩, df, hdf⟩ := h f hf
  simp only [stored, hp, hdf, Option.bind_eq_bind, Option.bind_some, Option.getD_some]
  split <;> rfl

/-- What is stored for the tests of an access and a coherency. -/
def shown (entries : List (Test u × List OutRow)) (mode : Mode) (access coh : Text) :
    List (Option Text × List ℕ) :=
  (entries.filter fun e => e.1.info.snoopType = access ∧ e.1.info.coherency = coh).map fun e =>
    (some (label e.1.info), kept quantile mode (e.2.map OutRow.latencyCycles))

/-- The files of one mode are stored for it, and those of another are not. -/
theorem flatMap_stored {entries : List (Test u × List OutRow)}
    (hlabel : ∀ e ∈ entries, label e.1.info ∈ order) (m mode : Mode) (access coh : Text) :
    (filesOf quantile entries m).flatMap (stored mode access coh) =
      if m = mode then shown quantile entries mode access coh else [] := by
  induction entries with
  | nil => simp [filesOf, shown]
  | cons e entries ih =>
    have ih := ih fun e' he' => hlabel e' (List.mem_cons_of_mem e he')
    have hparse := parseName_of_label (shape_of_valid e.1.valid) (hlabel e List.mem_cons_self) m
    have hfile : stored mode access coh (csvName e.1.info m.suffix, some (filtered quantile m e.2)) =
        if m ≠ mode ∨ e.1.info.snoopType ≠ access ∨ e.1.info.coherency ≠ coh then []
        else [(some (label e.1.info), kept quantile m (e.2.map OutRow.latencyCycles))] := by
      simp only [stored, hparse, Option.getD_some, map_filtered]
    rw [filesOf, List.map_cons, List.flatMap_cons, ← filesOf, ih, hfile]
    by_cases hm : m = mode
    · subst hm
      rw [if_pos rfl, if_pos rfl]
      by_cases hac : e.1.info.snoopType = access ∧ e.1.info.coherency = coh
      · rw [if_neg (by tauto), shown, shown, List.filter_cons_of_pos (by simpa using hac)]
        rfl
      · rw [if_pos (by tauto), shown, shown, List.filter_cons_of_neg (by simpa using hac)]
        rfl
    · rw [if_neg hm, if_neg hm, if_pos (Or.inl hm)]
      rfl

theorem nodup_shown {entries : List (Test u × List OutRow)}
    (hkeys : (entries.map Prod.fst).Pairwise fun t t' => shownAs t.info ≠ shownAs t'.info) (mode : Mode)
    (access coh : Text) : ((shown quantile entries mode access coh).map Prod.fst).Nodup := by
  rw [shown, List.map_map, List.Nodup, List.pairwise_map]
  rw [List.pairwise_map] at hkeys
  refine (hkeys.filter _).imp_of_mem fun {e e'} he he' hne heq => hne ?_
  have hac := of_decide_eq_true (List.mem_filter.mp he).2
  have hac' := of_decide_eq_true (List.mem_filter.mp he').2
  rw [shownAs, shownAs, hac.1, hac.2, hac'.1, hac'.2, Option.some.inj heq]

variable {quantile} in
/-- There are as many violins as tests. -/
theorem Shows.length_eq {tests : List (Test u)} {captures : Text → ℕ → Capture} {mode : Mode} {access coh : Text}
    {vs : List (Text × List ℕ)} (h : Shows quantile tests captures mode access coh vs)
    (hnodup : (vs.map Prod.fst).Nodup) (hkeys : tests.Pairwise fun t t' => shownAs t.info ≠ shownAs t'.info) :
    vs.length = (testsOf tests access coh).length := by
  have hlabels : ((testsOf tests access coh).map fun t => label t.info).Nodup := by
    rw [List.Nodup, List.pairwise_map]
    refine (hkeys.filter _).imp_of_mem fun {t t'} ht ht' hne heq => hne ?_
    have hac := of_decide_eq_true (List.mem_filter.mp ht).2
    have hac' := of_decide_eq_true (List.mem_filter.mp ht').2
    rw [shownAs, shownAs, hac.1, hac.2, hac'.1, hac'.2, heq]
  have hperm : (vs.map Prod.fst).Perm ((testsOf tests access coh).map fun t => label t.info) := by
    refine (List.perm_ext_iff_of_nodup hnodup hlabels).mpr fun l => ?_
    rw [List.mem_map, List.mem_map]
    constructor
    · rintro ⟨v, hv, rfl⟩
      obtain ⟨t, ht, haccess, hcoh, hlabel, -⟩ := h.only v hv
      exact ⟨t, List.mem_filter.mpr ⟨ht, decide_eq_true ⟨haccess, hcoh⟩⟩, hlabel⟩
    · rintro ⟨t, ht, rfl⟩
      obtain ⟨ht, hac⟩ := List.mem_filter.mp ht
      obtain ⟨haccess, hcoh⟩ := of_decide_eq_true hac
      obtain ⟨values, hv, -⟩ := h.all t ht haccess hcoh
      exact ⟨_, hv, rfl⟩
  simpa using hperm.length_eq

/-- The files of the tests, in any order, are drawn as they are to be. -/
theorem exists_shows (hq : IsQuantile quantile) {entries : List (Test u × List OutRow)}
    {captures : Text → ℕ → Capture}
    (hlat : ∀ e ∈ entries, (e.2.map OutRow.latencyCycles).Perm (latencies e.1 captures))
    (hne : ∀ e ∈ entries, latencies e.1 captures ≠ [])
    (hlabel : ∀ e ∈ entries, label e.1.info ∈ order)
    (hkeys : (entries.map Prod.fst).Pairwise fun t t' => shownAs t.info ≠ shownAs t'.info)
    (hthree : ∀ access coh, (testsOf (entries.map Prod.fst) access coh).length ≠ 3)
    {parsedResults quantilesResults : List (Text × Csv)}
    (hparsed : parsedResults.Perm (filesOf quantile entries .raw))
    (hquantiles : quantilesResults.Perm (filesOf quantile entries .q95 ++ filesOf quantile entries .q99))
    (mode : Mode) (access coh : Text) :
    ∃ vs, violins parsedResults quantilesResults mode access coh = some vs ∧
      Shows quantile (entries.map Prod.fst) captures mode access coh vs := by
  generalize hfiles : (if mode = .raw then parsedResults else quantilesResults) = files
  have hof : ∀ f ∈ files, ∃ e ∈ entries, ∃ m, f = (csvName e.1.info m.suffix, some (filtered quantile m e.2)) := by
    intro f hf
    rw [← hfiles] at hf
    split at hf
    · obtain ⟨e, he, rfl⟩ := List.mem_map.mp (hparsed.subset hf)
      exact ⟨e, he, .raw, rfl⟩
    · rcases List.mem_append.mp (hquantiles.subset hf) with hf | hf
      · obtain ⟨e, he, rfl⟩ := List.mem_map.mp hf
        exact ⟨e, he, .q95, rfl⟩
      · obtain ⟨e, he, rfl⟩ := List.mem_map.mp hf
        exact ⟨e, he, .q99, rfl⟩
  have hstored : (files.flatMap (stored mode access coh)).Perm (shown quantile entries mode access coh) := by
    rw [← hfiles]
    cases mode with
    | raw =>
      refine (hparsed.flatMap_right _).trans (List.Perm.of_eq ?_)
      rw [flatMap_stored quantile hlabel, if_pos rfl]
    | q95 =>
      refine (hquantiles.flatMap_right _).trans (List.Perm.of_eq ?_)
      rw [List.flatMap_append, flatMap_stored quantile hlabel, flatMap_stored quantile hlabel, if_pos rfl,
        if_neg (by decide), List.append_nil]
    | q99 =>
      refine (hquantiles.flatMap_right _).trans (List.Perm.of_eq ?_)
      rw [List.flatMap_append, flatMap_stored quantile hlabel, flatMap_stored quantile hlabel, if_pos rfl,
        if_neg (by decide), List.nil_append]
  have hdata := loadData_eq mode access coh fun f (hf : f ∈ files) => by
    obtain ⟨e, he, m, rfl⟩ := hof f hf
    exact ⟨⟨_, parseName_of_label (shape_of_valid e.1.valid) (hlabel e he) m⟩, _, rfl⟩
  have hnodup : ((files.flatMap (stored mode access coh)).map Prod.fst).Nodup :=
    (hstored.map Prod.fst).nodup_iff.mpr (nodup_shown quantile hkeys mode access coh)
  have hget : ∀ k values, (Dict.ofList (files.flatMap (stored mode access coh))).get? k = some values ↔
      (k, values) ∈ shown quantile entries mode access coh := fun k values => by
    rw [Dict.get?_eq_some, Dict.items_ofList hnodup, hstored.mem_iff]
  generalize Dict.ofList (files.flatMap (stored mode access coh)) = data at hdata hget
  have hmem : ∀ k values, data.get? k = some values ↔ ∃ e ∈ entries, e.1.info.snoopType = access ∧
      e.1.info.coherency = coh ∧ some (label e.1.info) = k ∧
      kept quantile mode (e.2.map OutRow.latencyCycles) = values := fun k values => by
    rw [hget, shown, List.mem_map]
    simp only [List.mem_filter, decide_eq_true_eq, Prod.mk.injEq, and_assoc]
  obtain ⟨vs, hvs⟩ : ∃ vs, bodies data = some vs := exists_bodies fun k hk => by
    obtain ⟨e, he, -, -, -, hnil⟩ := (hmem k []).mp hk
    have hlen := (kept_perm hq mode (hlat e he)).length_eq
    rw [hnil, List.length_nil, eq_comm, List.length_eq_zero_iff] at hlen
    exact kept_ne_nil hq mode (hne e he) hlen
  have hshows : Shows quantile (entries.map Prod.fst) captures mode access coh vs := by
    refine ⟨?_, fun v hv => ?_⟩
    · rintro t ht haccess hcoh
      obtain ⟨e, he, rfl⟩ := List.mem_map.mp ht
      exact ⟨_, (mem_bodies hvs).mpr ⟨hlabel e he, (hmem _ _).mpr ⟨e, he, haccess, hcoh, rfl, rfl⟩⟩,
        kept_perm hq mode (hlat e he)⟩
    · obtain ⟨e, he, haccess, hcoh, hk, hvalues⟩ := (hmem _ _).mp ((mem_bodies hvs).mp hv).2
      exact ⟨e.1, List.mem_map_of_mem he, haccess, hcoh, Option.some.inj hk,
        hvalues ▸ kept_perm hq mode (hlat e he)⟩
  have hlen : vs.length ≠ 3 := by
    rw [hshows.length_eq (nodup_bodies hvs) hkeys]
    exact hthree access coh
  exact ⟨vs, by rw [violins, hfiles, hdata]; exact plot_eq_some.mpr ⟨hvs, hlen⟩, hshows⟩

/-! ### From the folders to the plots -/

/-- Captures of one latency each, in all runs of a test. -/
theorem mem_latencies_of {t : Test u} (hruns : 2 ≤ t.runs) {captures : Text → ℕ → Capture} {n : ℕ}
    (h : ∀ run, latenciesOf t.info (captures t.name run) = [n]) (x : ℕ) : x ∈ latencies t captures ↔ x = n := by
  rw [latencies_eq, List.mem_flatMap]
  simp only [h, List.mem_singleton]
  exact ⟨fun ⟨_, _, hx⟩ => hx, fun hx => ⟨2, List.mem_range'_1.mpr (by omega), hx⟩⟩

/-- A request and its response two cycles later, for both types of snoop. -/
def slowCapture : Capture := [oneCapture.headD fun _ => [], fun _ => "0".toList, oneCapture.headD fun _ => []]

theorem latenciesOf_slowCapture {info : TestInfo} (h : Shape info) : latenciesOf info slowCapture = [2] := by
  have htwo : ∀ id ∈ [1, 2], ((snoopConfig id).elim [] fun cfg => calcLatencies cfg slowCapture) = [2] := by
    decide +kernel
  rcases h.snoop with ⟨h, -⟩ | ⟨h, -⟩
  · exact htwo _ (h ▸ List.mem_cons_self)
  · exact htwo _ (h ▸ List.mem_cons_of_mem _ List.mem_cons_self)

variable {quantile}

/-- What is drawn under the label of a test in the first plots. -/
theorem Drawn.exists_plot {tests : List (Test u)} (h : Drawn quantile tests) {captures : Text → ℕ → Capture}
    (hne : ∀ t ∈ tests, latencies t captures ≠ []) (access coh : Text) :
    ∃ data vs, plot data = some vs ∧ Shows quantile tests captures .raw access coh vs := by
  have hfolders : List.Forall₂ (fun t f => FolderOf t (captures t.name) f) tests
      (tests.map fun t => Folder.mk t.name (t.files (captures t.name))) :=
    List.forall₂_map_right_iff.mpr (List.forall₂_same.mpr fun t _ => ⟨rfl, List.Perm.refl _⟩)
  obtain ⟨output, -, hout⟩ := h captures _ hfolders hne
  obtain ⟨filtered, -, hfiltered⟩ := hout _ (List.Perm.refl _)
  obtain ⟨vs, hvs, hshows⟩ := hfiltered _ (List.Perm.refl _) .raw access coh
  obtain ⟨data, -, hplot⟩ := Option.bind_eq_some_iff.mp hvs
  exact ⟨data, vs, hplot, hshows⟩

/-- **From the folders to the violins**: whatever the captures hold and the
directories list first, every test is drawn under its label and nothing else
is, iff every test is without interference or has 1, 2, 4 or 8 channels, no two
tests of an access and a coherency have one label, and there are not three of
any. -/
theorem drawn_iff (hq : IsQuantile quantile) {tests : List (Test u)} (hruns : ∀ t ∈ tests, 2 ≤ t.runs)
    (hnames : (tests.map Test.name).Nodup) :
    Drawn quantile tests ↔
      (∀ t ∈ tests, t.info.interference = "solo".toList ∨ t.info.channels ∈ [1, 2, 4, 8]) ∧
        (tests.Pairwise fun t t' => shownAs t.info ≠ shownAs t'.info) ∧
        ∀ access coh, (testsOf tests access coh).length ≠ 3 := by
  have hone : ∀ t ∈ tests, latencies t (fun _ _ => oneCapture) ≠ [] := fun t ht =>
    List.ne_nil_of_mem ((mem_latencies_of (hruns t ht)
      (fun _ => latenciesOf_oneCapture (shape_of_valid t.valid)) 1).mpr rfl)
  constructor
  · intro h
    refine ⟨fun t ht => ?_, ?_⟩
    · obtain ⟨data, vs, hplot, hshows⟩ := h.exists_plot hone t.info.snoopType t.info.coherency
      obtain ⟨values, hmem, -⟩ := hshows.all t ht rfl rfl
      exact (label_mem_order_iff t.info).mp ((mem_bodies (plot_eq_some.mp hplot).1).mp hmem).1
    have hkeys : tests.Pairwise fun t t' => shownAs t.info ≠ shownAs t'.info := by
      refine (List.pairwise_map.mp hnames).imp_of_mem fun {t t'} ht ht' hname heq => ?_
      -- the two tests would be drawn under one label, and have different latencies
      let captures : Text → ℕ → Capture := fun name _ => if name = t.name then oneCapture else slowCapture
      have hlat : ∀ s ∈ tests, ∃ n, (∀ x, x ∈ latencies s captures ↔ x = n) ∧ (n = 1 ↔ s.name = t.name) := by
        intro s hs
        have hshape := shape_of_valid s.valid
        by_cases hst : s.name = t.name
        · have hcapture : ∀ run, latenciesOf s.info (captures s.name run) = [1] := fun run => by
            rw [show captures s.name run = oneCapture from if_pos hst, latenciesOf_oneCapture hshape]
          exact ⟨1, mem_latencies_of (hruns s hs) hcapture, by simp [hst]⟩
        · have hcapture : ∀ run, latenciesOf s.info (captures s.name run) = [2] := fun run => by
            rw [show captures s.name run = slowCapture from if_neg hst, latenciesOf_slowCapture hshape]
          exact ⟨2, mem_latencies_of (hruns s hs) hcapture, by simp [hst]⟩
      have hne : ∀ s ∈ tests, latencies s captures ≠ [] := fun s hs => by
        obtain ⟨n, hn, -⟩ := hlat s hs
        exact List.ne_nil_of_mem ((hn n).mpr rfl)
      obtain ⟨data, vs, hplot, hshows⟩ := h.exists_plot hne t.info.snoopType t.info.coherency
      rw [shownAs, shownAs, Prod.mk.injEq, Prod.mk.injEq] at heq
      obtain ⟨values, hmem, hperm⟩ := hshows.all t ht rfl rfl
      obtain ⟨values', hmem', hperm'⟩ := hshows.all t' ht' heq.1.symm heq.2.1.symm
      obtain rfl : values = values' := by
        have hvalues := ((mem_bodies (plot_eq_some.mp hplot).1).mp hmem).2
        have hvalues' := ((mem_bodies (plot_eq_some.mp hplot).1).mp hmem').2
        rw [heq.2.2, hvalues'] at hvalues
        exact (Option.some.inj hvalues).symm
      obtain ⟨n, hn, hone⟩ := hlat t ht
      obtain ⟨n', hn', hone'⟩ := hlat t' ht'
      have hx : n ∈ latencies t' captures := hperm'.subset (hperm.symm.subset ((hn n).mpr rfl))
      have hnn : n = n' := (hn' n).mp hx
      exact hname (hone'.mp (hnn ▸ hone.mpr rfl)).symm
    refine ⟨hkeys, fun access coh => ?_⟩
    obtain ⟨data, vs, hplot, hshows⟩ := h.exists_plot hone access coh
    obtain ⟨hvs, hlen⟩ := plot_eq_some.mp hplot
    rwa [← hshows.length_eq (nodup_bodies hvs) hkeys]
  · rintro ⟨hlabels, hkeys, hthree⟩ captures folders h hne
    have hinfo : tests.Pairwise fun t t' => t.info ≠ t'.info :=
      hkeys.imp fun hne heq => hne (congrArg shownAs heq)
    obtain ⟨output, hout, entries, rfl, hlat, hitems⟩ :=
      processAll_files h (fun t ht => by have := hruns t ht; omega) hinfo
    have hmem : ∀ e ∈ entries, e.1 ∈ entries.map Prod.fst := fun e he => List.mem_map_of_mem he
    refine ⟨output, hout, fun parsedResults hparsed => ?_⟩
    have hraw : parsedResults.Perm (filesOf quantile entries .raw) := by
      refine (hparsed.trans (hitems.map _)).trans (List.Perm.of_eq ?_)
      rw [List.map_map, filesOf]
      refine List.map_congr_left fun e he => ?_
      have hrows : e.2 ≠ [] := by
        rintro hnil
        have hlen := (hlat e he).length_eq
        rw [hnil, List.map_nil, List.length_nil, eq_comm, List.length_eq_zero_iff] at hlen
        exact hne e.1 (hmem e he) hlen
      show (outFilename e.1.info, toCsv e.2) = _
      rw [toCsv, if_neg hrows]
      rfl
    obtain ⟨filtered, hfiltered, hperm⟩ := processFiles_files quantile hraw hinfo
    refine ⟨filtered, hfiltered, fun quantilesResults hquantiles mode access coh => ?_⟩
    exact exists_shows quantile hq hlat (fun e he => hne e.1 (hmem e he))
      (fun e he => (label_mem_order_iff e.1.info).mpr (hlabels e.1 (hmem e he))) hkeys hthree hraw
      (hquantiles.trans hperm) mode access coh

/-- Linear interpolation between two values in order. -/
def interpolate (values : List ℕ) (place : ℚ) : ℚ :=
  let below := values.getD ⌊place⌋₊ 0
  let above := values.getD (⌊place⌋₊ + 1) below
  below + ((above : ℚ) - below) * (place - ⌊place⌋₊)

def linear (q : ℚ) (l : List ℕ) : ℚ :=
  interpolate (l.insertionSort (· ≤ ·)) (q * ((l.length : ℚ) - 1))

theorem exists_le_interpolate {values : List ℕ} (hsorted : values.Pairwise (· ≤ ·)) {place : ℚ}
    (h0 : 0 ≤ place) (hlt : place < values.length) : ∃ x ∈ values, (x : ℚ) ≤ interpolate values place := by
  have hi : ⌊place⌋₊ < values.length := (Nat.floor_lt h0).mpr hlt
  have hfrac : 0 ≤ place - ⌊place⌋₊ := sub_nonneg.mpr (Nat.floor_le h0)
  have hmem : values.getD ⌊place⌋₊ 0 ∈ values := by
    rw [List.getD_eq_getElem?_getD, List.getElem?_eq_getElem hi]
    exact List.getElem_mem hi
  have hle : values.getD ⌊place⌋₊ 0 ≤ values.getD (⌊place⌋₊ + 1) (values.getD ⌊place⌋₊ 0) := by
    simp only [List.getD_eq_getElem?_getD, List.getElem?_eq_getElem hi, Option.getD_some]
    by_cases hi' : ⌊place⌋₊ + 1 < values.length
    · rw [List.getElem?_eq_getElem hi', Option.getD_some]
      exact List.pairwise_iff_getElem.mp hsorted _ _ hi hi' (Nat.lt_succ_self _)
    · rw [List.getElem?_eq_none (Nat.le_of_not_lt hi'), Option.getD_none]
  refine ⟨_, hmem, ?_⟩
  have hstep : (0 : ℚ) ≤ (values.getD (⌊place⌋₊ + 1) (values.getD ⌊place⌋₊ 0) : ℕ) -
      (values.getD ⌊place⌋₊ 0 : ℕ) := sub_nonneg.mpr (Nat.cast_le.mpr hle)
  exact le_add_of_nonneg_right (mul_nonneg hstep hfrac)

theorem isQuantile_linear : IsQuantile linear where
  perm q l l' h := by
    have hsort : l.insertionSort (· ≤ ·) = l'.insertionSort (· ≤ ·) :=
      ((List.perm_insertionSort _ l).trans (h.trans (List.perm_insertionSort _ l').symm)).eq_of_pairwise
        (fun a b _ _ hab hba => le_antisymm hab hba) (List.pairwise_insertionSort _ l)
        (List.pairwise_insertionSort _ l')
    rw [linear, linear, hsort, h.length_eq]
  least q l h0 h1 hne := by
    have hlen : (1 : ℚ) ≤ l.length := Nat.one_le_cast.mpr (List.length_pos_iff.mpr hne)
    have hplace : 0 ≤ q * ((l.length : ℚ) - 1) := mul_nonneg h0 (by linarith)
    have hlt : q * ((l.length : ℚ) - 1) < (l.insertionSort (· ≤ ·)).length := by
      rw [List.length_insertionSort]
      nlinarith
    obtain ⟨x, hx, hle⟩ := exists_le_interpolate (List.pairwise_insertionSort (· ≤ ·) l) hplace hlt
    exact ⟨x, (List.perm_insertionSort _ l).subset hx, hle⟩

/-- Ten captures do no harm here. -/
theorem drawn_solo : Drawn linear [soloFolder "3".toList 10 (by decide +kernel)] := by
  refine (drawn_iff isQuantile_linear ?_ ?_).mpr ⟨?_, List.pairwise_singleton _ _, fun access coh => ?_⟩
  · intro t ht
    obtain rfl := List.mem_singleton.mp ht
    exact (by decide : 2 ≤ 10)
  · exact List.nodup_singleton (soloFolder "3".toList 10 (by decide +kernel)).name
  · intro t ht
    obtain rfl := List.mem_singleton.mp ht
    exact .inl rfl
  · have hlen := List.length_filter_le (fun t : Test asciiData => t.info.snoopType = access ∧ t.info.coherency = coh)
      [soloFolder "3".toList 10 (by decide +kernel)]
    rw [testsOf]
    exact fun h => absurd (h ▸ hlen) (by decide)

end Violins
end DaatMcs
