/-
# The names of the mitigation variants

The name of a triple is the name of its base with the tags of its colour
variant and of its MBR variant. The names are the keys of the result, and the
tags do not separate all triples. The MBR tags are told from the own names of
the variants (`mbrTags_eq`). A colour tag shows the numbers of ones and where
it ends, so two colour variants can only be mixed up by the same numbers. And
of two bases the name of one must be that of the other with a colour tag and
the beginning of an MBR tag, whose rest is a whole tag again
(`tags_append_inj`).

`interferenceMitigation_iff` is exactly when every variant keeps an entry of
its own.
-/
import DaatMcs.Generator.VariantNames
import Mathlib.Data.List.Pairwise

namespace DaatMcs
namespace TestEngine

/-- The MBR tags of a text by the variants: their own names, with the index
where a name was given before. -/
def variantTags (p : Mitigation) (content : Text) : List Text :=
  if p.mbrConfigs = [] then [[]]
  else givenNames appendIdx (ownNames content [] p.mbrPatterns p.mbrConfigs)

/-- The names of the triples in the order of the loops. -/
def tripleNames (p : Mitigation) (bases : List (Text × Text)) : List Text :=
  bases.flatMap fun b => (ccVariants p b.2).flatMap fun c =>
    (variantTags p c.2).map fun m => b.1 ++ (c.1 ++ m)

/-- Every variant keeps an entry of its own: the entries are as many as the
triples, each triple's name has the triple's text, and the list of names has
exactly the names, each once. -/
structure NoVariantLost (p : Mitigation) (bases out : Dict Text Text) (names : List Text)
    (entries : List (Text × Text)) : Prop where
  texts : entries.map Prod.snd = tripleTexts p bases
  card : out.items.length =
    bases.items.length * max 1 p.cacheColors.length * max 1 p.mbrConfigs.length
  entry : ∀ e ∈ entries, out.get? e.1 = some e.2
  names_nodup : names.Nodup
  mem_names : ∀ n, n ∈ names ↔ n ∈ out.keys

/-- Where an MBR tag of the base `b` ends with a whole tag of `b'`, `b'` is not
named by what stands before. -/
def NotNamedBehind (p : Mitigation) (b b' : Text × Text) : Prop :=
  ∀ c ∈ ccVariants p b.2, ∀ m ∈ variantTags p c.2,
  ∀ c' ∈ ccVariants p b'.2, ∀ m' ∈ variantTags p c'.2,
    ∀ before, before ≠ [] → m = before ++ (c'.1 ++ m') → b'.1 ≠ b.1 ++ (c.1 ++ before)

/-- The variants are told apart: of each coloured text no MBR variant whose
own name was given before gets, by its index, the own name of an earlier one;
colour variants with the same numbers of ones have no MBR tag in common; and
no base is named by another one with the beginning of its tags. -/
structure TagsApart (p : Mitigation) (bases : Dict Text Text) : Prop where
  mbr : ∀ b ∈ bases.items, ∀ content ∈ colorTexts p b.2,
    BumpsApart appendIdx (ownNames content [] p.mbrPatterns p.mbrConfigs)
  colors : ∀ b ∈ bases.items, p.cacheColors.Pairwise fun v w => colorCounts v = colorCounts w →
    (variantTags p (colorText p.ccPatterns b.2 v)).Disjoint
      (variantTags p (colorText p.ccPatterns b.2 w))
  bases : ∀ b ∈ bases.items, ∀ b' ∈ bases.items, NotNamedBehind p b b'

/-! ### The tags -/

theorem mbrTags_eq (p : Mitigation) (content : Text) : mbrTags p content = variantTags p content := by
  rw [mbrTags, variantTags]
  split
  · next h => rw [h]; rfl
  · next h => exact map_fst_generateMbrCode content [] p.mbrPatterns h

theorem nodup_variantTags_iff (p : Mitigation) (content : Text) : (variantTags p content).Nodup ↔
    BumpsApart appendIdx (ownNames content [] p.mbrPatterns p.mbrConfigs) := by
  rw [variantTags]
  split
  · next h =>
    rw [h]
    exact iff_of_true (List.nodup_singleton _) fun i t ht _ => by cases ht
  · exact nodup_givenNames_iff fun _ _ _ _ => appendIdx_index

theorem mem_variantTags {p : Mitigation} {content m : Text} (h : m ∈ variantTags p content) :
    m = [] ∨ ∃ name, m = "_mbr_".toList ++ name := by
  rw [variantTags] at h
  split at h
  · exact .inl (List.mem_singleton.mp h)
  · have hown : ∀ u ∈ ownNames content [] p.mbrPatterns p.mbrConfigs, ∃ name, u = "_mbr_".toList ++ name := by
      intro u hu
      obtain ⟨v, -, rfl⟩ := List.mem_map.mp hu
      exact ⟨_, rfl⟩
    rcases mem_givenNames.mp h with h | ⟨i, u, -, hu, rfl⟩
    · exact .inr (hown m h)
    · obtain ⟨name, rfl⟩ := hown u (List.mem_of_getElem? hu)
      refine .inr ⟨name ++ "_".toList ++ showNat i, ?_⟩
      simp only [appendIdx, List.append_assoc]

/-- The second `c` of a text that starts with `_cc` and goes on without `c`
does not come behind an underscore. -/
theorem not_colorTag_inside {x w : Text} (n : ℕ) (l : List ℕ) (hx : x ≠ []) :
    colorTag n l ≠ x ++ '_' :: 'c' :: w := by
  have hrest : 'c' ∉ join "_".toList (l.map showNat) ++ "-".toList ++ showNat n := by
    rw [List.mem_append, List.mem_append, not_or, not_or]
    refine ⟨⟨notMem_join (by decide) fun t ht => ?_, by decide⟩, notMem_showNat (by decide) n⟩
    obtain ⟨k, -, rfl⟩ := List.mem_map.mp ht
    exact notMem_showNat (by decide) k
  intro heq
  have hcc : colorTag n l = '_' :: 'c' :: 'c' :: '_' ::
      (join "_".toList (l.map showNat) ++ "-".toList ++ showNat n) := by
    rw [colorTag, List.append_assoc, List.append_assoc]
    simp only [List.append_assoc]
    rfl
  rw [hcc] at heq
  rcases x with _ | ⟨a, _ | ⟨b, _ | ⟨d, _ | ⟨e, x⟩⟩⟩⟩
  · exact hx rfl
  · simp at heq
  · simp at heq
  · simp only [List.cons_append, List.nil_append, List.cons.injEq] at heq
    exact hrest (heq.2.2.2.2 ▸ List.mem_cons_self)
  · simp only [List.cons_append, List.cons.injEq] at heq
    refine hrest (heq.2.2.2.2 ▸ List.mem_append_right x ?_)
    exact List.mem_cons_of_mem _ List.mem_cons_self

/-- Tags of one base that are tags of another behind a text: the text goes
into the MBR tag. -/
theorem tags_append_inj {p : Mitigation} {content content' : Text} {c c' : Text × Text} {m m' x : Text}
    (hc : c ∈ ccVariants p content) (hm : m ∈ variantTags p c.2) (hc' : c' ∈ ccVariants p content')
    (hx : x ≠ []) (h : c.1 ++ m = x ++ (c'.1 ++ m')) :
    ∃ before, before ≠ [] ∧ x = c.1 ++ before ∧ m = before ++ (c'.1 ++ m') := by
  rw [ccVariants] at hc hc'
  split at hc
  · next hcc =>
    rw [if_pos hcc] at hc'
    rw [List.mem_singleton.mp hc, List.mem_singleton.mp hc'] at h ⊢
    exact ⟨x, hx, rfl, h⟩
  · next hcc =>
    rw [if_neg hcc] at hc'
    obtain ⟨v, -, rfl⟩ := List.mem_map.mp hc
    obtain ⟨v', -, rfl⟩ := List.mem_map.mp hc'
    have hstart : ∀ t : Text, colorTag p.numCacheColors (colorCounts v') ++ t =
        '_' :: 'c' :: ("c_".toList ++ join "_".toList ((colorCounts v').map showNat) ++ "-".toList ++
          showNat p.numCacheColors ++ t) := fun t => by
      simp only [colorTag, List.append_assoc]
      rfl
    have hm' : ∀ t, m ≠ 'c' :: t ∧ m ≠ '_' :: 'c' :: t := fun t => by
      rcases mem_variantTags hm with rfl | ⟨name, rfl⟩
      · simp
      · exact ⟨fun heq => by simp at heq, fun heq => by simp at heq⟩
    dsimp only at h ⊢
    rcases List.append_eq_append_iff.mp h with ⟨before, rfl, heq⟩ | ⟨w, hw, heq⟩
    · refine ⟨before, ?_, rfl, heq⟩
      rintro rfl
      rw [List.nil_append, hstart] at heq
      exact (hm' _).2 heq
    · -- the second tag would start inside the first
      rw [hstart] at heq
      rcases w with _ | ⟨a, _ | ⟨b, w⟩⟩
      · exact absurd heq.symm (hm' _).2
      · rw [List.singleton_append, List.cons.injEq] at heq
        exact absurd heq.2.symm (hm' _).1
      · rw [List.cons_append, List.cons_append, List.cons.injEq, List.cons.injEq] at heq
        obtain ⟨rfl, rfl, -⟩ := heq
        exact absurd hw (not_colorTag_inside _ _ hx)

/-! ### When no variant is lost -/

theorem map_fst_baseEntries (p : Mitigation) (b : Text × Text) :
    (baseEntries p b).map Prod.fst =
      (ccVariants p b.2).flatMap fun c => (variantTags p c.2).map fun m => b.1 ++ (c.1 ++ m) := by
  simp only [baseEntries, List.map_flatMap, List.map_map, ← mbrTags_eq, mbrTags]
  rfl

/-- The names of the entries are the names of the triples. -/
theorem map_fst_entries (p : Mitigation) (bases : List (Text × Text)) :
    (bases.flatMap (baseEntries p)).map Prod.fst = tripleNames p bases := by
  rw [List.map_flatMap, tripleNames]
  exact List.flatMap_congr fun b _ => map_fst_baseEntries p b

theorem mem_map_fst_baseEntries {p : Mitigation} {b : Text × Text} {n : Text} :
    n ∈ (baseEntries p b).map Prod.fst ↔
      ∃ c ∈ ccVariants p b.2, ∃ m ∈ variantTags p c.2, b.1 ++ (c.1 ++ m) = n := by
  simp only [map_fst_baseEntries, List.mem_flatMap, List.mem_map]

theorem colorTexts_eq (p : Mitigation) (content : Text) :
    colorTexts p content = (ccVariants p content).map Prod.snd := by
  rw [colorTexts, ccVariants]
  split
  · rfl
  · rw [List.map_map]
    rfl

/-- The names of one base are distinct iff its tags are. -/
theorem nodup_baseEntries (p : Mitigation) (b : Text × Text) :
    ((baseEntries p b).map Prod.fst).Nodup ↔
      (∀ content ∈ colorTexts p b.2, BumpsApart appendIdx (ownNames content [] p.mbrPatterns p.mbrConfigs)) ∧
        p.cacheColors.Pairwise fun v w => colorCounts v = colorCounts w →
          (variantTags p (colorText p.ccPatterns b.2 v)).Disjoint
            (variantTags p (colorText p.ccPatterns b.2 w)) := by
  rw [map_fst_baseEntries, List.nodup_flatMap, colorTexts_eq, List.forall_mem_map]
  refine and_congr (forall₂_congr fun c _ => ?_) ?_
  · rw [← nodup_variantTags_iff]
    exact List.nodup_map_iff fun m m' h => by simpa [List.append_cancel_left_eq] using h
  · rw [ccVariants]
    split
    · rename_i hc
      simp [hc]
    · rw [List.pairwise_map]
      refine List.Pairwise.iff fun v w => ?_
      simp only [Function.onFun, List.disjoint_left, List.mem_map, not_exists, not_and]
      constructor
      · intro h hvw m hm hm'
        exact h ⟨m, hm, rfl⟩ m hm' (by rw [hvw])
      · rintro h n ⟨m, hm, rfl⟩ m' hm' heq
        obtain ⟨hcounts, rfl⟩ := colorTag_append_inj (List.append_cancel_left heq)
        exact h hcounts.symm hm hm'

/-- Two bases have a name in common iff one is named by the other with the
beginning of tags that end with tags of its own. -/
theorem disjoint_baseEntries {p : Mitigation} {b b' : Text × Text} (hne : b.1 ≠ b'.1) :
    ((baseEntries p b).map Prod.fst).Disjoint ((baseEntries p b').map Prod.fst) ↔
      NotNamedBehind p b b' ∧ NotNamedBehind p b' b := by
  simp only [List.disjoint_left, mem_map_fst_baseEntries]
  constructor
  · intro h
    refine ⟨fun c hc m hm c' hc' m' hm' before _ hb heq => ?_, fun c hc m hm c' hc' m' hm' before _ hb heq => ?_⟩
    · exact h ⟨c, hc, m, hm, rfl⟩ ⟨c', hc', m', hm', by rw [heq, hb]; simp only [List.append_assoc]⟩
    · exact h ⟨c', hc', m', hm', by rw [heq, hb]; simp only [List.append_assoc]⟩ ⟨c, hc, m, hm, rfl⟩
  · rintro ⟨h, h'⟩ n ⟨c, hc, m, hm, rfl⟩ ⟨c', hc', m', hm', heq⟩
    rcases List.append_eq_append_iff.mp heq with ⟨x, hb, heq⟩ | ⟨x, hb, heq⟩
    · obtain ⟨before, hbefore, rfl, hm⟩ := tags_append_inj hc' hm' hc (fun hx => hne (by simp [hb, hx])) heq
      exact h' c' hc' m' hm' c hc m ‹_› before hbefore hm hb
    · obtain ⟨before, hbefore, rfl, hm'⟩ := tags_append_inj hc hm hc' (fun hx => hne (by simp [hb, hx])) heq
      exact h c hc m hm c' hc' m' ‹_› before hbefore hm' hb

/-- The names are all distinct iff the tags separate the variants. -/
theorem nodup_tripleNames (p : Mitigation) (bases : Dict Text Text) :
    (tripleNames p bases.items).Nodup ↔ TagsApart p bases := by
  have hnodup := bases.nodup
  rw [List.nodup_iff_pairwise_ne, List.pairwise_map] at hnodup
  rw [← map_fst_entries, List.map_flatMap, List.nodup_flatMap]
  constructor
  · rintro ⟨hbase, hpair⟩
    have hsymm : Std.Symm fun b b' => NotNamedBehind p b b' ∧ NotNamedBehind p b' b := ⟨fun _ _ h => h.symm⟩
    have happ : bases.items.Pairwise fun b b' => NotNamedBehind p b b' ∧ NotNamedBehind p b' b :=
      (hnodup.and hpair).imp fun h => (disjoint_baseEntries h.1).mp h.2
    refine ⟨fun b hb => ((nodup_baseEntries p b).mp (hbase b hb)).1,
      fun b hb => ((nodup_baseEntries p b).mp (hbase b hb)).2, fun b hb b' hb' => ?_⟩
    by_cases hbb : b = b'
    · rw [← hbb]
      intro c _ m _ c' _ m' _ before hbefore _ heq
      simp [hbefore] at heq
    · exact (happ.forall hb hb' hbb).1
  · intro h
    refine ⟨fun b hb => (nodup_baseEntries p b).mpr ⟨h.mbr b hb, h.colors b hb⟩, ?_⟩
    refine hnodup.imp_of_mem fun {b b'} hb hb' hne => (disjoint_baseEntries hne).mpr ?_
    exact ⟨h.bases b hb b' hb', h.bases b' hb' b hb⟩

/-- **Main result.** With hexadecimal colours the mitigation step always has
a result, and it keeps an entry for every variant iff the tags separate them. -/
theorem interferenceMitigation_iff (p : Mitigation) (bases : Dict Text Text) (h : HexColors p) :
    ∃ entries out names, mitigationEntries p bases = some entries ∧
      generateInterferenceMitigationConfigurations p bases = some (out, names) ∧
      (NoVariantLost p bases out names entries ↔ TagsApart p bases) := by
  have hentries := mitigationEntries_eq h bases
  refine ⟨_, _, _, hentries, by rw [generateInterferenceMitigationConfigurations, hentries]; rfl, ?_⟩
  rw [← nodup_tripleNames, ← map_fst_entries]
  constructor
  · exact fun h => h.names_nodup
  · intro hnd
    have hitems := Dict.items_ofList hnd
    refine ⟨map_snd_entries p bases, by rw [hitems, length_entries], fun e he => ?_, hnd,
      fun n => ?_⟩
    · rw [Dict.get?_eq_some, hitems]
      exact he
    · rw [Dict.keys, hitems]

/-- A base with two coloured VMs. -/
def twoVms : Dict Text Text := .ofList [("linux_cache".toList,
  "#linux_cache_coloring_config#\n#baremetal_cache_coloring_config#\n".toList)]

/-- The given colours for it, without bandwidth limits. -/
def twoVmColors (cacheColors : List (List Text)) : Mitigation where
  numCacheColors := 8
  ccPatterns := ["#linux_cache_coloring_config#\n".toList,
    "#baremetal_cache_coloring_config#\n".toList]
  mbrPatterns := ["#baremetal_mem_br_config#\n".toList, "#linux_mem_br_config#\n".toList]
  cacheColors := cacheColors
  mbrConfigs := []

/-- Two and six colours, or three and five. -/
def splitColors : Mitigation :=
  twoVmColors [["0x3".toList, "0xfc".toList], ["0x7".toList, "0xf8".toList]]

/-- Two masks, and the same the other way round. -/
def swappedColors : Mitigation :=
  twoVmColors [["0x3".toList, "0xc".toList], ["0xc".toList, "0x3".toList]]

theorem interferenceMitigation_iff_split :
    ∃ entries out names, mitigationEntries splitColors twoVms = some entries ∧
      generateInterferenceMitigationConfigurations splitColors twoVms = some (out, names) ∧
      NoVariantLost splitColors twoVms out names entries := by
  obtain ⟨entries, out, names, hentries, hout, hiff⟩ :=
    interferenceMitigation_iff splitColors twoVms (by decide +kernel)
  exact ⟨entries, out, names, hentries, hout, hiff.mpr ((nodup_tripleNames _ _).mp (by decide +kernel))⟩

/-- Swapped masks have the same numbers of ones: two different variants get
one name, and the first text is overwritten. -/
theorem swapped_variant_lost :
    HexColors swappedColors ∧ swappedColors.cacheColors.Nodup ∧
    ∃ entries out names, mitigationEntries swappedColors twoVms = some entries ∧
      generateInterferenceMitigationConfigurations swappedColors twoVms = some (out, names) ∧
      ¬ NoVariantLost swappedColors twoVms out names entries := by
  have hhex : HexColors swappedColors := by decide +kernel
  have hentries := mitigationEntries_eq hhex twoVms
  refine ⟨hhex, by decide, _, _, _, hentries,
    by rw [generateInterferenceMitigationConfigurations, hentries]; rfl, fun h => ?_⟩
  exact absurd h.names_nodup (by decide +kernel)

end TestEngine
end DaatMcs
