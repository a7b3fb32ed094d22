/-
# The tag of a cache partition

The name of a coloured configuration shows of its masks only the numbers of
ones, joined by `_`; the percentages show the same numbers. A generated
partition is laid out without gaps from bit 0 on, so it is read back from its
tag (`decodeTag`): each number is a run of ones, shifted by the numbers before
it. For other masks this fails, `0x2` has the tag of `0x1`.
-/
import DaatMcs.Generator.CacheColors
import DaatMcs.Generator.Mitigation

namespace DaatMcs
namespace TestEngine

/-- `color_id_str`: the numbers of ones of the masks. -/
def colorIdStr (variantColors : List Text) : Text :=
  join "_".toList ((colorCounts variantColors).map showNat)

/-- The configuration line and the percentage of one VM. -/
def vmConfiguration (numCacheColors : ℕ) (vmColors : Text) : Option (Text × Text) :=
  (countOnesInHex vmColors).map fun n =>
    (colorConfigStr vmColors, showNat n ++ "-".toList ++ showNat numCacheColors)

/-- The configuration lines and the percentages of the colour variants. -/
def getCacheColorsConfigurations (listCacheColors : List (List Text)) (numCacheColors : ℕ) :
    Option (List (List Text) × List (List Text)) :=
  (listCacheColors.mapM fun cacheColor : List Text => cacheColor.mapM (vmConfiguration numCacheColors)).map
    fun system => (system.map fun vms => vms.map Prod.fst, system.map fun vms => vms.map Prod.snd)

/-- The numbers of a tag, each as a run of ones shifted by the sum of those
before it. -/
def decodeTag (tag : Text) : List Text :=
  let counts := (tag.splitOn '_').map readNat
  counts.zipIdx.map fun (count, i) => hex (((1 <<< count) - 1) <<< (counts.take i).sum)

/-! ### Partitions -/

theorem zipIdx_runs (parts : List ℕ) :
    parts.zipIdx.map (fun (count, i) => hex (((1 <<< count) - 1) <<< (parts.take i).sum)) =
      (runs 0 parts).map hex := by
  refine List.ext_getElem? fun i => ?_
  rw [List.getElem?_map, List.getElem?_zipIdx, List.getElem?_map, getElem?_runs, Option.map_map,
    Option.map_map]
  simp only [Nat.zero_add]
  rfl

theorem intOfHex_isSome_of_mem {parts : List ℕ} : ∀ c ∈ (runs 0 parts).map hex, (intOfHex c).isSome := by
  intro c hc
  obtain ⟨n, -, rfl⟩ := List.mem_map.mp hc
  rw [intOfHex_hex]
  rfl

/-- The numbers of ones of a partition are its parts. -/
theorem colorCounts_runs (parts : List ℕ) : colorCounts ((runs 0 parts).map hex) = parts := by
  have hones : ∀ n : ℕ, (countOnesInHex (hex n)).getD 0 = popcount n := fun n => by
    rw [countOnesInHex, intOfHex_hex]
    rfl
  rw [colorCounts, List.map_map]
  simp only [Function.comp_def, hones]
  exact map_popcount_runs 0 parts

theorem colorTag_eq (hwNumCacheColors : ℕ) (variantColors : List Text) :
    colorTag hwNumCacheColors (colorCounts variantColors) =
      "_cc_".toList ++ colorIdStr variantColors ++ "-".toList ++ showNat hwNumCacheColors := by
  unfold colorTag colorIdStr
  rfl

/-- The parts are read back from the tag. -/
theorem decodeTag_runs {parts : List ℕ} (hne : parts ≠ []) :
    decodeTag (colorIdStr ((runs 0 parts).map hex)) = (runs 0 parts).map hex := by
  have hno : ∀ p ∈ parts.map showNat, '_' ∉ p := fun p hp => by
    obtain ⟨n, -, rfl⟩ := List.mem_map.mp hp
    exact notMem_showNat (by decide) n
  have hcounts : ((colorIdStr ((runs 0 parts).map hex)).splitOn '_').map readNat = parts := by
    rw [colorIdStr, colorCounts_runs, join]
    show List.map readNat (List.splitOn '_' (['_'].intercalate (parts.map showNat))) = parts
    rw [List.splitOn_intercalate '_' hno (mt List.map_eq_nil_iff.mp hne), List.map_map]
    simp [Function.comp_def]
  unfold decodeTag
  rw [hcounts]
  exact zipIdx_runs parts

theorem getCacheColorsConfigurations_eq {listCacheColors : List (List Text)}
    (h : ∀ v ∈ listCacheColors, ∀ c ∈ v, (intOfHex c).isSome) (numCacheColors : ℕ) :
    getCacheColorsConfigurations listCacheColors numCacheColors =
      some (listCacheColors.map fun v => v.map colorConfigStr, listCacheColors.map fun v =>
        (colorCounts v).map fun n => showNat n ++ "-".toList ++ showNat numCacheColors) := by
  have hsystem : ∀ v ∈ listCacheColors, v.mapM (vmConfiguration numCacheColors) = some (v.map fun c =>
      (colorConfigStr c, showNat ((countOnesInHex c).getD 0) ++ "-".toList ++ showNat numCacheColors)) :=
    fun v hv => mapM_eq_some fun c hc => by
      obtain ⟨n, hn⟩ := Option.isSome_iff_exists.mp (h v hv c hc)
      simp [vmConfiguration, countOnesInHex, hn]
  rw [getCacheColorsConfigurations, mapM_eq_some hsystem, Option.map_some]
  simp only [List.map_map, Function.comp_def, colorCounts]

/-- The generated assignments are the masks of splits, none of which is empty. -/
theorem exists_runs (numBits : ℕ) {numVms minColorsPerVm : ℕ} (hv : 0 < numVms)
    (hm : 0 < minColorsPerVm) :
    ∃ assignments, generateCacheColorsAssignment numBits numVms minColorsPerVm = some assignments ∧
      ∀ masks ∈ assignments, ∃ parts, parts ≠ [] ∧ masks = (runs 0 parts).map hex := by
  refine ⟨_, generateCacheColorsAssignment_eq hv, fun masks hmasks => ?_⟩
  obtain ⟨parts, hsplit, rfl⟩ := List.mem_map.mp hmasks
  refine ⟨parts, ?_, rfl⟩
  rintro rfl
  exact absurd ((mem_splits hv hm).mp hsplit).length_eq hv.ne

/-- **Main result.** The tag of a generated assignment identifies it: its
masks are decoded from the tag, so distinct assignments have distinct tags;
it is the tag in the names of `generate_cache_colors_code`; and the numbers in
it are those of the percentages. -/
theorem colorTag_identifies (numBits numVms minColorsPerVm : ℕ) (hv : 0 < numVms)
    (hm : 0 < minColorsPerVm) :
    ∃ assignments, generateCacheColorsAssignment numBits numVms minColorsPerVm = some assignments ∧
      (∀ masks ∈ assignments, decodeTag (colorIdStr masks) = masks) ∧
      (∀ masks ∈ assignments, ∀ masks' ∈ assignments, colorIdStr masks = colorIdStr masks' →
        masks = masks') ∧
      (∀ (content filename : Text) (patterns : List Text) (hw : ℕ), assignments ≠ [] →
        ∃ configs, generateCacheColorsCode content filename patterns assignments hw = some configs ∧
          configs.map Prod.fst = assignments.map fun masks =>
            filename ++ "_cc_".toList ++ colorIdStr masks ++ "-".toList ++ showNat hw) ∧
      ∀ numCacheColors, ∃ configs, getCacheColorsConfigurations assignments numCacheColors =
        some (configs, assignments.map fun masks =>
          (colorCounts masks).map fun n => showNat n ++ "-".toList ++ showNat numCacheColors) := by
  obtain ⟨assignments, hgen, hparts⟩ := exists_runs numBits hv hm
  have hhex : ∀ masks ∈ assignments, ∀ c ∈ masks, (intOfHex c).isSome := by
    intro masks hmasks
    obtain ⟨parts, -, rfl⟩ := hparts masks hmasks
    exact intOfHex_isSome_of_mem
  have hdecode : ∀ masks ∈ assignments, decodeTag (colorIdStr masks) = masks := by
    intro masks hmasks
    obtain ⟨parts, hne, rfl⟩ := hparts masks hmasks
    exact decodeTag_runs hne
  refine ⟨assignments, hgen, ?_⟩
  refine ⟨hdecode, fun masks hmasks masks' hmasks' h => ?_, fun content filename patterns hw hne => ?_,
    fun numCacheColors => ⟨_, getCacheColorsConfigurations_eq hhex numCacheColors⟩⟩
  · rw [← hdecode masks hmasks, h, hdecode masks' hmasks']
  · refine ⟨_, @generateCacheColorsCode_eq ⟨hw, patterns, [], _, []⟩ hhex content filename, ?_⟩
    rw [ccVariants, if_neg hne]
    simp only [List.map_map, Function.comp_def, colorTag_eq, List.append_assoc]

/-- Five colours for two VMs: two assignments, with two and three colours or
with three and two, and their tags. -/
theorem colorTag_identifies_five : ∃ assignments, generateCacheColorsAssignment 5 2 2 = some assignments ∧
    assignments = [["0x3".toList, "0x1c".toList], ["0x7".toList, "0x18".toList]] ∧
    assignments.map colorIdStr = ["2_3".toList, "3_2".toList] ∧
    (∀ masks ∈ assignments, decodeTag (colorIdStr masks) = masks) ∧
    ∀ masks ∈ assignments, ∀ masks' ∈ assignments, colorIdStr masks = colorIdStr masks' → masks = masks' := by
  obtain ⟨assignments, h, hdecode, hinj, -⟩ := colorTag_identifies 5 2 2 (by decide) (by decide)
  have hlist : assignments = [["0x3".toList, "0x1c".toList], ["0x7".toList, "0x18".toList]] :=
    Option.some.inj (h.symm.trans (by decide +kernel))
  have htags : assignments.map colorIdStr = ["2_3".toList, "3_2".toList] := by
    rw [hlist]
    decide +kernel
  exact ⟨assignments, h, hlist, htags, hdecode, hinj⟩

end TestEngine
end DaatMcs
