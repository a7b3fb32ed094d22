/-
# The mitigation variants

From every base configuration the test engine makes one configuration for
each cache colour variant and each memory bandwidth (MBR) variant: the
placeholders of the text are replaced, and the name gets a tag for each of
the two: the colour tag keeps the numbers of ones of the masks, the MBR tag is
sanitised and gets its index appended where it was given before.

The result has an entry for each triple of base, colour variant and MBR
variant in the order of the loops (`mitigationEntries_eq`), its text that of
the triple (`map_snd_entries`).
-/
import DaatMcs.Lib.Dict
import DaatMcs.Lib.Hex
import DaatMcs.Lib.Lines
import DaatMcs.Lib.Runs
import DaatMcs.Lib.Text
import DaatMcs.Lib.Traverse
import DaatMcs.Lib.Unicode

namespace DaatMcs

namespace TestEngine

open Literal

/-! ### Cache colours -/

/-- The line of a coloured VM. -/
def colorConfigStr (color : Text) : Text := ".colors = ".toList ++ color ++ ",\n".toList

/-- The loop over the occurrences of one pattern: the VM instance is counted
on over the patterns, and instances past the variant are skipped. The state
is the text and the number of replacements so far. -/
def colorPattern (variantColors : List Text) (s : Text × ℕ) (pattern : Text) : Text × ℕ :=
  let sectors := occurrences pattern s.1
  (spliceBack (fun occIdx => variantColors[s.2 + occIdx]?.map colorConfigStr) sectors s.1,
    s.2 + ((List.range sectors.length).filter fun occIdx =>
      s.2 + occIdx < variantColors.length).length)

/-- The text with one colour variant. -/
def colorText (patterns : List Text) (content : Text) (variantColors : List Text) : Text :=
  (patterns.foldl (colorPattern variantColors) (content, 0)).1

/-- The text with every occurrence of the patterns replaced by a newline. -/
def removePatterns (patterns : List Text) (content : Text) : Text :=
  patterns.foldl (fun content pattern =>
    spliceBack (fun _ => some "\n".toList) (occurrences pattern content) content) content

/-- `bin(int(hex_str, 16)).count('1')`. -/
def countOnesInHex (hexStr : Text) : Option ℕ := (intOfHex hexStr).map fun n => popcount n.natAbs

/-- The tag of a colour variant in a name. -/
def colorTag (hwNumCacheColors : ℕ) (colorCounts : List ℕ) : Text :=
  "_cc_".toList ++ join "_".toList (colorCounts.map showNat) ++ "-".toList ++ showNat hwNumCacheColors

/-- The named texts of the colour variants; none if a colour is no
hexadecimal number. -/
def generateCacheColorsCode (fileContent filename : Text) (listCcConfigPattern : List Text)
    (listCacheColors : List (List Text)) (hwNumCacheColors : ℕ) : Option (List (Text × Text)) :=
  if listCacheColors = [] then
    some [(filename, removePatterns listCcConfigPattern fileContent)]
  else
    listCacheColors.mapM fun variantColors =>
      (variantColors.mapM countOnesInHex).map fun colorCounts =>
        (filename ++ colorTag hwNumCacheColors colorCounts,
          colorText listCcConfigPattern fileContent variantColors)

/-! ### Memory bandwidth -/

/-- A budget or a period of the configuration file. -/
inductive Scalar
  | int (n : ℤ)
  | str (s : Text)
deriving DecidableEq

def Scalar.show : Scalar → Text
  | .int n => showInt n
  | .str s => s

/-- The MBR setting of a guest: its lines, a dictionary of values (`None`
among them), or something else. -/
inductive MbrConfig
  | lines (l : List Text)
  | settings (d : Dict Text (Option Scalar))
  | other (s : Option Scalar)
deriving DecidableEq

/-- An MBR variant: a setting for each guest name, or the legacy list of
lines per VM instance. -/
inductive MbrVariant
  | keyed (guests : Dict Text MbrConfig)
  | legacy (vms : List (List Text))
deriving DecidableEq

def generateMbrVariant (budget period : Scalar) : List Text :=
  [".mem_throth = \x7b".toList,
    "\t\t\t\t.budget = ".toList ++ budget.show ++ ",".toList,
    "\t\t\t\t.period_us = ".toList ++ period.show ++ ",".toList,
    "\t\t\t\x7d,\n\t".toList]

/-- Budget and period of a dictionary, unless one of them is `None`. -/
def budgetAndPeriod (d : Dict Text (Option Scalar)) : Option (Scalar × Scalar) :=
  let budget := (d.get? "budget".toList).join
  let period := (d.get? "period".toList).getD (d.get? "period_us".toList).join
  match budget, period with
  | some b, some p => some (b, p)
  | _, _ => none

def toMbrLines : MbrConfig → List Text
  | .lines l => l
  | .settings d =>
    match budgetAndPeriod d with
    | some (budget, period) => generateMbrVariant budget period
    | none => []
  | .other _ => []

/-- The guests with their lines, those without lines left out. -/
def guestLineVariants (guests : Dict Text MbrConfig) : List (Text × List Text) :=
  (guests.items.map fun g => (g.1, toMbrLines g.2)).filter fun g => g.2 ≠ []

/-- A guest's part of the variant's name. -/
def variantNamePart (g : Text × MbrConfig) : Text :=
  match g.2 with
  | .settings d =>
    match budgetAndPeriod d with
    | some (budget, period) =>
      g.1 ++ "_B".toList ++ budget.show ++ "_P".toList ++ period.show
    | none => g.1 ++ "_".toList ++ showNat (toMbrLines g.2).length
  | _ => g.1 ++ "_".toList ++ showNat (toMbrLines g.2).length

def variantNameParts (guests : Dict Text MbrConfig) : List Text :=
  (guests.items.filter fun g => toMbrLines g.2 ≠ []).map variantNamePart

/-- The guest a pattern is for: `#([a-zA-Z0-9]+)_mem_br_config#`. -/
def patternGuestHint : Text → Text
  | [] => []
  | c :: cs =>
    let guest := cs.takeWhile Char.isAlphanum
    let rest := cs.dropWhile Char.isAlphanum
    if c = '#' ∧ guest ≠ [] ∧ "_mem_br_config#".toList.isPrefixOf rest then guest.map Char.toLower
    else patternGuestHint cs

/-- What replaces an occurrence of a pattern for the given guests: the lines
of the only guest, or of the guest in the occurrence's place, the last one
for all occurrences past it. -/
def mbrConfigStr (matchingVariants : List (Text × List Text)) (occIdx : ℕ) : Text :=
  match matchingVariants[min occIdx (matchingVariants.length - 1)]? with
  | none => "\n".toList
  | some (_, mbrLines) => join "\n".toList mbrLines ++ "\n".toList

def keyedPattern (guestLines : List (Text × List Text)) (content pattern : Text) : Text :=
  let hint := patternGuestHint pattern
  let matchingVariants :=
    if hint = [] then guestLines
    else guestLines.filter fun g => (find hint (lower g.1)).isSome
  spliceBack (fun occIdx => some (mbrConfigStr matchingVariants occIdx))
    (occurrences pattern content) content

/-- The state of the legacy loop: the text, the replacements so far and the
numbers of lines they had. -/
structure LegacyState where
  content : Text
  replaced : ℕ
  counts : List Text

def legacyPattern (vms : List (List Text)) (s : LegacyState) (pattern : Text) : LegacyState :=
  let sectors := occurrences pattern s.content
  let counts := (List.range sectors.length).reverse.filterMap fun occIdx =>
    vms[s.replaced + occIdx]?.map fun mbrLines => showNat mbrLines.length
  { content := spliceBack (fun occIdx =>
      match vms[s.replaced + occIdx]? with
      | none => some "\n".toList
      | some mbrLines => some (join "\n".toList mbrLines ++ "\n".toList)) sectors s.content
    replaced := s.replaced + counts.length
    counts := s.counts ++ counts }

/-- The text with one MBR variant and the parts of the variant's name. -/
def mbrText (patterns : List Text) (content : Text) : MbrVariant → Text × List Text
  | .keyed guests =>
    (patterns.foldl (keyedPattern (guestLineVariants guests)) content, variantNameParts guests)
  | .legacy vms =>
    let s := patterns.foldl (legacyPattern vms) ⟨content, 0, []⟩
    (s.content, if s.counts = [] then [] else [join "_".toList s.counts])

/-- `re.sub(r"[^A-Za-z0-9_.-]+", "_", value)`; `inRun` within a replaced run. -/
def replaceRuns (inRun : Bool) : Text → Text
  | [] => []
  | c :: cs =>
    if c.isAlphanum ∨ c = '_' ∨ c = '.' ∨ c = '-' then c :: replaceRuns false cs
    else if inRun then replaceRuns true cs
    else '_' :: replaceRuns true cs

def sanitizeName (value : Text) : Text :=
  let safeVal := ((replaceRuns false value).dropWhile (· = '_')).rdropWhile (· = '_')
  if safeVal = [] then "none".toList else safeVal

/-- The sanitised name of a variant. -/
def mbrName (variantIdx : ℕ) (nameParts : List Text) : Text :=
  sanitizeName (if nameParts = [] then "variant".toList ++ showNat variantIdx
    else join "_".toList nameParts)

/-- The loop over the MBR variants: a name given before gets the index of the
variant appended. -/
def mbrLoop (patterns : List Text) (fileContent filename : Text)
    (configs : List (Text × Text)) (v : MbrVariant × ℕ) : List (Text × Text) :=
  let (newFileContent, nameParts) := mbrText patterns fileContent v.1
  let finalName := filename ++ "_mbr_".toList ++ mbrName v.2 nameParts
  let finalName :=
    if finalName ∈ configs.map Prod.fst then finalName ++ "_".toList ++ showNat v.2 else finalName
  configs ++ [(finalName, newFileContent)]

/-- The named texts of the MBR variants. -/
def generateMbrCode (fileContent filename : Text) (listMbrConfigPattern : List Text)
    (listMbrConfigs : List MbrVariant) : List (Text × Text) :=
  if listMbrConfigs = [] then [(filename, removePatterns listMbrConfigPattern fileContent)]
  else listMbrConfigs.zipIdx.foldl (mbrLoop listMbrConfigPattern fileContent filename) []

/-! ### All variants -/

/-- What the mitigation step is given besides the base configurations. -/
structure Mitigation where
  numCacheColors : ℕ
  ccPatterns : List Text
  mbrPatterns : List Text
  cacheColors : List (List Text)
  mbrConfigs : List MbrVariant

/-- The named texts in the order the three loops make them. -/
def mitigationEntries (p : Mitigation) (listConfigs : Dict Text Text) :
    Option (List (Text × Text)) :=
  (listConfigs.items.mapM fun base =>
    (generateCacheColorsCode base.2 base.1 p.ccPatterns p.cacheColors p.numCacheColors).map
      fun ccConfigs => ccConfigs.flatMap fun cc => generateMbrCode cc.2 cc.1 p.mbrPatterns p.mbrConfigs
  ).map List.flatten

/-- The output dictionary and the new `self.list_configs`. -/
def generateInterferenceMitigationConfigurations (p : Mitigation) (listConfigs : Dict Text Text) :
    Option (Dict Text Text × List Text) :=
  (mitigationEntries p listConfigs).map fun entries => (.ofList entries, entries.map Prod.fst)

/-! ### Tags -/

/-- The numbers of ones of the masks. -/
def colorCounts (variantColors : List Text) : List ℕ :=
  variantColors.map fun color => (countOnesInHex color).getD 0

/-- The tags and texts of the colour variants, for masks that are numbers. -/
def ccVariants (p : Mitigation) (content : Text) : List (Text × Text) :=
  if p.cacheColors = [] then [([], removePatterns p.ccPatterns content)]
  else p.cacheColors.map fun v =>
    (colorTag p.numCacheColors (colorCounts v), colorText p.ccPatterns content v)

/-- The MBR tags for a text: the names on an empty base name. -/
def mbrTags (p : Mitigation) (content : Text) : List Text :=
  (generateMbrCode content [] p.mbrPatterns p.mbrConfigs).map Prod.fst

/-- The colours of the variants are hexadecimal numbers. -/
def HexColors (p : Mitigation) : Prop := ∀ v ∈ p.cacheColors, ∀ c ∈ v, (intOfHex c).isSome

instance (p : Mitigation) : Decidable (HexColors p) :=
  inferInstanceAs (Decidable (∀ v ∈ p.cacheColors, ∀ c ∈ v, (intOfHex c).isSome = true))

/-- The texts of the colour variants. -/
def colorTexts (p : Mitigation) (content : Text) : List Text :=
  if p.cacheColors = [] then [removePatterns p.ccPatterns content]
  else p.cacheColors.map (colorText p.ccPatterns content)

/-- The texts of the MBR variants. -/
def mbrTexts (p : Mitigation) (content : Text) : List Text :=
  if p.mbrConfigs = [] then [removePatterns p.mbrPatterns content]
  else p.mbrConfigs.map fun v => (mbrText p.mbrPatterns content v).1

/-- The texts of the triples of base, colour variant and MBR variant. -/
def tripleTexts (p : Mitigation) (bases : Dict Text Text) : List Text :=
  bases.items.flatMap fun base => (colorTexts p base.2).flatMap (mbrTexts p)

/-- The tag of a colour variant shows the numbers of ones, and ends there. -/
theorem colorTag_append_inj {n : ℕ} {l l' : List ℕ} {m m' : Text}
    (h : colorTag n l ++ m = colorTag n l' ++ m') : l = l' ∧ m = m' := by
  have hdash : ∀ l : List ℕ, '-' ∉ join "_".toList (l.map showNat) := fun l =>
    notMem_join (by decide) fun p hp => by
      obtain ⟨n, -, rfl⟩ := List.mem_map.mp hp
      exact notMem_showNat (by decide) n
  have hparts : ∀ l : List ℕ, ∀ p ∈ l.map showNat, p ≠ [] ∧ '_' ∉ p := fun l p hp => by
    obtain ⟨n, -, rfl⟩ := List.mem_map.mp hp
    exact ⟨showNat_ne_nil n, notMem_showNat (by decide) n⟩
  unfold colorTag at h
  simp only [List.append_assoc, List.append_cancel_left_eq] at h
  have hjoin : join "_".toList (l.map showNat) = join "_".toList (l'.map showNat) := by
    refine (prefix_append_singleton (showNat n ++ m') (hdash l) (hdash l')).mp ?_
    exact ⟨showNat n ++ m, by rw [List.append_assoc]; exact h⟩
  rw [hjoin, List.append_cancel_left_eq, List.append_cancel_left_eq,
    List.append_cancel_left_eq] at h
  exact ⟨List.map_injective_iff.mpr showNat_injective (join_inj (hparts l) (hparts l') hjoin), h⟩

/-- The replacements of a pattern that has `m` occurrences, from `r` on. -/
theorem length_filter_range (m n r : ℕ) :
    ((List.range m).filter fun i => r + i < n).length = min m (n - r) := by
  induction m with
  | zero => simp
  | succ m ih =>
    rw [List.range_succ, List.filter_append, List.length_append, ih]
    by_cases h : r + m < n
    · simp [h]
      omega
    · simp [h]
      omega

/-- Lines without `#` make a text without it, at the end of a line. -/
theorem mbrConfigStr_plain {variants : List (Text × List Text)}
    (h : ∀ g ∈ variants, ∀ l ∈ g.2, '#' ∉ l) (occIdx : ℕ) :
    ∃ t, mbrConfigStr variants occIdx = t ++ ['\n'] ∧ '#' ∉ t := by
  rw [mbrConfigStr]
  split
  · exact ⟨[], rfl, by decide⟩
  · rename_i name mbrLines hget
    exact ⟨join "\n".toList mbrLines, rfl,
      notMem_join (by decide) (h _ (List.mem_of_getElem? hget))⟩

/-! ### The entries -/

theorem mapM_countOnesInHex {v : List Text} (h : ∀ c ∈ v, (intOfHex c).isSome) :
    v.mapM countOnesInHex = some (colorCounts v) :=
  mapM_eq_some fun c hc => by
    obtain ⟨n, hn⟩ := Option.isSome_iff_exists.mp (h c hc)
    simp [countOnesInHex, hn]

theorem generateCacheColorsCode_eq {p : Mitigation} (h : HexColors p) (content filename : Text) :
    generateCacheColorsCode content filename p.ccPatterns p.cacheColors p.numCacheColors =
      some ((ccVariants p content).map fun c => (filename ++ c.1, c.2)) := by
  rw [generateCacheColorsCode, ccVariants]
  by_cases hc : p.cacheColors = []
  · rw [if_pos hc, if_pos hc]
    simp
  · rw [if_neg hc, if_neg hc, List.map_map]
    refine mapM_eq_some fun v hv => ?_
    rw [mapM_countOnesInHex (h v hv)]
    rfl

theorem mbrLoop_filename (patterns : List Text) (content filename : Text)
    (configs : List (Text × Text)) (v : MbrVariant × ℕ) :
    mbrLoop patterns content filename (configs.map fun e => (filename ++ e.1, e.2)) v =
      (mbrLoop patterns content [] configs v).map fun e => (filename ++ e.1, e.2) := by
  have hmem : ∀ t, filename ++ t ∈ (configs.map fun e => (filename ++ e.1, e.2)).map Prod.fst ↔
      t ∈ configs.map Prod.fst := fun t => by
    simp [List.append_cancel_left_eq]
  simp only [mbrLoop, List.nil_append, List.append_assoc]
  by_cases ht : "_mbr_".toList ++ mbrName v.2 (mbrText patterns content v.1).2 ∈
      configs.map Prod.fst
  · rw [if_pos ((hmem _).mpr ht), if_pos ht]
    simp
  · rw [if_neg (mt (hmem _).mp ht), if_neg ht]
    simp

/-- The names are the file name with the tags. -/
theorem generateMbrCode_filename (p : Mitigation) (content filename : Text) :
    generateMbrCode content filename p.mbrPatterns p.mbrConfigs =
      (generateMbrCode content [] p.mbrPatterns p.mbrConfigs).map
        fun e => (filename ++ e.1, e.2) := by
  have hloop : ∀ (l : List (MbrVariant × ℕ)) (configs : List (Text × Text)),
      l.foldl (mbrLoop p.mbrPatterns content filename)
          (configs.map fun e => (filename ++ e.1, e.2)) =
        (l.foldl (mbrLoop p.mbrPatterns content []) configs).map
          fun e => (filename ++ e.1, e.2) := fun l => by
    induction l with
    | nil => exact fun _ => rfl
    | cons v l ih =>
      intro configs
      rw [List.foldl_cons, List.foldl_cons, mbrLoop_filename, ih]
  rw [generateMbrCode, generateMbrCode]
  by_cases hm : p.mbrConfigs = []
  · rw [if_pos hm, if_pos hm]
    simp
  · rw [if_neg hm, if_neg hm]
    exact hloop _ []

/-- The texts, one for each MBR variant. -/
theorem map_snd_generateMbrCode (content filename : Text) (patterns : List Text)
    (configs : List MbrVariant) :
    (generateMbrCode content filename patterns configs).map Prod.snd =
      if configs = [] then [removePatterns patterns content]
      else configs.map fun v => (mbrText patterns content v).1 := by
  have hloop : ∀ (l : List MbrVariant) (k : ℕ) (acc : List (Text × Text)),
      ((l.zipIdx k).foldl (mbrLoop patterns content filename) acc).map Prod.snd =
        acc.map Prod.snd ++ l.map fun v => (mbrText patterns content v).1 := fun l => by
    induction l with
    | nil => simp
    | cons v l ih =>
      intro k acc
      rw [List.zipIdx_cons, List.foldl_cons, ih, mbrLoop]
      simp
  rw [generateMbrCode]
  by_cases hm : configs = []
  · rw [if_pos hm, if_pos hm]
    rfl
  · rw [if_neg hm, if_neg hm, hloop]
    rfl

theorem length_generateMbrCode (content filename : Text) (patterns : List Text)
    (configs : List MbrVariant) :
    (generateMbrCode content filename patterns configs).length = max 1 configs.length := by
  have h := congrArg List.length (map_snd_generateMbrCode content filename patterns configs)
  rw [List.length_map] at h
  rw [h]
  split
  · rename_i hm
    simp [hm]
  · rename_i hm
    have := List.length_pos_iff.mpr hm
    rw [List.length_map]
    omega

theorem length_ccVariants (p : Mitigation) (content : Text) :
    (ccVariants p content).length = max 1 p.cacheColors.length := by
  rw [ccVariants]
  split
  · rename_i hc
    simp [hc]
  · rename_i hc
    have := List.length_pos_iff.mpr hc
    rw [List.length_map]
    omega

/-- The entries of one base configuration. -/
def baseEntries (p : Mitigation) (base : Text × Text) : List (Text × Text) :=
  (ccVariants p base.2).flatMap fun c =>
    (generateMbrCode c.2 [] p.mbrPatterns p.mbrConfigs).map fun m =>
      (base.1 ++ (c.1 ++ m.1), m.2)

theorem mitigationEntries_eq {p : Mitigation} (h : HexColors p) (bases : Dict Text Text) :
    mitigationEntries p bases = some (bases.items.flatMap (baseEntries p)) := by
  have hbase : ∀ b ∈ bases.items,
      ((generateCacheColorsCode b.2 b.1 p.ccPatterns p.cacheColors p.numCacheColors).map
        fun ccConfigs => ccConfigs.flatMap fun cc =>
          generateMbrCode cc.2 cc.1 p.mbrPatterns p.mbrConfigs) = some (baseEntries p b) :=
    fun b _ => by
      rw [generateCacheColorsCode_eq h, Option.map_some, List.flatMap_map, baseEntries]
      simp only [generateMbrCode_filename p _ (_ ++ _), List.append_assoc]
  rw [mitigationEntries, mapM_eq_some hbase, Option.map_some, List.flatMap]

/-- A colour that is no number raises. -/
theorem mitigationEntries_of_not_hex {p : Mitigation} (h : ¬ HexColors p) {bases : Dict Text Text}
    (hb : bases.items ≠ []) : mitigationEntries p bases = none := by
  by_contra hsome
  obtain ⟨entries, hentries⟩ := Option.ne_none_iff_exists'.mp hsome
  obtain ⟨parts, hparts, -⟩ := Option.map_eq_some_iff.mp hentries
  obtain ⟨b, hmem⟩ := List.exists_mem_of_ne_nil _ hb
  obtain ⟨part, hpart⟩ := exists_some_of_mapM hparts hmem
  obtain ⟨variants, hvariants, -⟩ := Option.map_eq_some_iff.mp hpart
  refine h fun v hv c hc => ?_
  rw [generateCacheColorsCode, if_neg (List.ne_nil_of_mem hv)] at hvariants
  obtain ⟨e, he⟩ := exists_some_of_mapM hvariants hv
  obtain ⟨counts, hcounts, -⟩ := Option.map_eq_some_iff.mp he
  obtain ⟨n, hn⟩ := exists_some_of_mapM hcounts hc
  obtain ⟨i, hi, -⟩ := Option.map_eq_some_iff.mp hn
  rw [hi]
  rfl

theorem length_flatMap_const {α β : Type} {f : α → List β} {n : ℕ} : ∀ l : List α,
    (∀ a ∈ l, (f a).length = n) → (l.flatMap f).length = l.length * n
  | [], _ => by simp
  | a :: l, h => by
    have ih := length_flatMap_const l fun x hx => h x (List.mem_cons_of_mem a hx)
    rw [List.flatMap_cons, List.length_append, h a List.mem_cons_self, ih, List.length_cons,
      Nat.succ_mul, Nat.add_comm]

theorem length_entries (p : Mitigation) (bases : Dict Text Text) :
    (bases.items.flatMap (baseEntries p)).length =
      bases.items.length * max 1 p.cacheColors.length * max 1 p.mbrConfigs.length := by
  rw [Nat.mul_assoc]
  refine length_flatMap_const _ fun b _ => ?_
  rw [baseEntries, ← length_ccVariants p b.2]
  refine length_flatMap_const _ fun c _ => ?_
  rw [List.length_map, length_generateMbrCode]

theorem map_snd_entries (p : Mitigation) (bases : Dict Text Text) :
    (bases.items.flatMap (baseEntries p)).map Prod.snd = tripleTexts p bases := by
  rw [List.map_flatMap, tripleTexts]
  refine List.flatMap_congr fun b _ => ?_
  have hcc : colorTexts p b.2 = (ccVariants p b.2).map Prod.snd := by
    rw [colorTexts, ccVariants]
    split
    · rfl
    · rw [List.map_map]
      rfl
  rw [hcc, List.flatMap_map, baseEntries, List.map_flatMap]
  refine List.flatMap_congr fun c _ => ?_
  rw [List.map_map, mbrTexts, ← map_snd_generateMbrCode c.2 []]
  rfl

end TestEngine
end DaatMcs
