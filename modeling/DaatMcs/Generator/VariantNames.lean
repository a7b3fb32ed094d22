/-
# The names of the bandwidth variants

`generate_mbr_code` names each variant after its settings, and appends the
index of the variant where that name was given before. The name with the
index is not looked up again: it can be the own name of an earlier variant
(`variant_names_clash`). The names are distinct iff that does not happen
(`nodup_variantNames_iff`). Without variants there is one name, that of the
file.
-/
import DaatMcs.Generator.Mitigation
import DaatMcs.Lib.Naming

namespace DaatMcs
namespace TestEngine

/-- The own name of a variant: the final name without the index for a name
given before. -/
def ownName (fileContent filename : Text) (patterns : List Text) (v : MbrVariant × ℕ) : Text :=
  filename ++ "_mbr_".toList ++ mbrName v.2 (mbrText patterns fileContent v.1).2

def ownNames (fileContent filename : Text) (patterns : List Text) (variants : List MbrVariant) : List Text :=
  variants.zipIdx.map (ownName fileContent filename patterns)

/-- `f"{final_name}_{variant_idx}"`. -/
def appendIdx (finalName : Text) (variantIdx : ℕ) : Text := finalName ++ "_".toList ++ showNat variantIdx

theorem appendIdx_index {t u : Text} {i j : ℕ} (h : appendIdx t i = appendIdx u j) : i = j := by
  have hno : ∀ n, '_' ∉ showNat n := notMem_showNat (by decide)
  have hmid : t ++ '_' :: [] ++ showNat i = u ++ '_' :: [] ++ showNat j := h
  exact showNat_injective (append_inj_middle (hno i) (hno j) hmid).2

theorem mbrLoop_fst (patterns : List Text) (fileContent filename : Text) (configs : List (Text × Text))
    (v : MbrVariant × ℕ) (hv : v.2 = configs.length) :
    (mbrLoop patterns fileContent filename configs v).map Prod.fst = configs.map Prod.fst ++
      [givenName appendIdx (configs.map Prod.fst) (ownName fileContent filename patterns v)] := by
  rw [givenName, List.length_map, ← hv]
  unfold mbrLoop
  dsimp only
  rw [List.map_append, List.map_singleton]
  by_cases h : ownName fileContent filename patterns v ∈ configs.map Prod.fst
  · rw [if_pos h, ← ownName, if_pos h]
    rfl
  · rw [if_neg h, ← ownName, if_neg h]

/-- The loop gives each variant its name after the names before. -/
theorem map_fst_generateMbrCode (fileContent filename : Text) (patterns : List Text)
    {variants : List MbrVariant} (h : variants ≠ []) :
    (generateMbrCode fileContent filename patterns variants).map Prod.fst =
      givenNames appendIdx (ownNames fileContent filename patterns variants) := by
  rw [generateMbrCode, if_neg h, ownNames]
  clear h
  induction variants using List.reverseRecOn with
  | nil => rfl
  | append_singleton variants v ih =>
    have hlen : (variants.zipIdx.foldl (mbrLoop patterns fileContent filename) []).length =
        variants.length := by
      rw [← List.length_map Prod.fst, ih, length_givenNames, List.length_map, List.length_zipIdx]
    rw [List.zipIdx_append, List.foldl_append, List.zipIdx_singleton, Nat.zero_add, List.foldl_cons,
      List.foldl_nil, mbrLoop_fst _ _ _ _ _ hlen.symm, ih, List.map_append, List.map_singleton,
      givenNames_concat]

/-- **When every variant has its own name**: no name with the index appended
is the own name of an earlier variant. -/
theorem nodup_variantNames_iff (fileContent filename : Text) (patterns : List Text)
    {variants : List MbrVariant} (h : variants ≠ []) :
    ((generateMbrCode fileContent filename patterns variants).map Prod.fst).Nodup ↔
      BumpsApart appendIdx (ownNames fileContent filename patterns variants) := by
  rw [map_fst_generateMbrCode fileContent filename patterns h]
  exact nodup_givenNames_iff fun _ _ _ _ => appendIdx_index

/-- **Main result.** Without variants there is one name, that of the file;
else as many names as variants, and distinct ones if no name with the index
appended is the own name of an earlier variant. -/
theorem variant_names (fileContent filename : Text) (patterns : List Text) :
    (generateMbrCode fileContent filename patterns []).map Prod.fst = [filename] ∧
    ∀ variants : List MbrVariant, variants ≠ [] →
      ((generateMbrCode fileContent filename patterns variants).map Prod.fst).length = variants.length ∧
      (BumpsApart appendIdx (ownNames fileContent filename patterns variants) →
        ((generateMbrCode fileContent filename patterns variants).map Prod.fst).Nodup) := by
  refine ⟨rfl, fun variants h => ⟨?_, (nodup_variantNames_iff fileContent filename patterns h).mpr⟩⟩
  rw [map_fst_generateMbrCode fileContent filename patterns h, length_givenNames, ownNames,
    List.length_map, List.length_zipIdx]

/-- The lines of one VM. -/
def oneVm : MbrVariant := .legacy [["x".toList]]

/-- The same variant twice has one own name, and the second name gets its index. -/
theorem variant_names_twice :
    ((generateMbrCode "#P#\n".toList "base".toList ["#P#\n".toList] [oneVm, oneVm]).map Prod.fst) =
      ["base_mbr_1".toList, "base_mbr_1_1".toList] ∧
    ((generateMbrCode "#P#\n".toList "base".toList ["#P#\n".toList] [oneVm, oneVm]).map Prod.fst).Nodup := by
  refine ⟨by decide +kernel,
    ((variant_names "#P#\n".toList "base".toList ["#P#\n".toList]).2 [oneVm, oneVm] (by decide)).2
      fun i t ht _ => ?_⟩
  have hall : ∀ p ∈ (ownNames "#P#\n".toList "base".toList ["#P#\n".toList] [oneVm, oneVm]).zipIdx,
      appendIdx p.1 p.2 ∉
        (ownNames "#P#\n".toList "base".toList ["#P#\n".toList] [oneVm, oneVm]).take p.2 := by
    decide +kernel
  exact hall (t, i) (List.mem_zipIdx_iff_getElem?.mpr ht)

/-- No variants still give a name; and of three variants the second is named
`1_2` by its lines, the third by its index. -/
theorem variant_names_clash :
    (generateMbrCode [] "base".toList [] []).length ≠ ([] : List MbrVariant).length ∧
    ¬ ((generateMbrCode "#P#\n#P#\n".toList "base".toList ["#P#\n".toList]
      [oneVm, .legacy [["x".toList, "y".toList], ["x".toList]], oneVm]).map Prod.fst).Nodup := by
  decide +kernel

end TestEngine
end DaatMcs
