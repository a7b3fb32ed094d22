/-
# Automatic cache colouring

For a setup with cache colouring and no colours of its own, `main` computes
the number of VMs, has the cache partitioned among them and passes the
partitions on as colour variants. The number is the number of the setup's
guests, less one for the profiler, which is not coloured; but whether there is
a profiler is asked of all setups of the run together. So a setup without
profiler has one partition too few when another setup has one: `isolated_iff`
is exactly when every coloured VM gets a mask of its own.
-/
import DaatMcs.Generator.CacheColors
import DaatMcs.Generator.Placeholders

namespace DaatMcs
namespace TestEngine

open Literal

/-- `num_cache_colors` of the platform. -/
def numCacheColors : ℕ := 8

/-- `min_colors_per_vm` where it is not given. -/
def minColorsPerVm : ℕ := 2

/-- A setup as `main` reads it: its guests by their kinds, and the variants
`generate_mbr_assignments` makes of its bandwidth configuration. -/
structure Setup where
  name : Text
  guests : List GuestKind
  cacheColoring : Bool
  cacheColoringList : List (List Text)
  mbrSettings : List MbrVariant

/-- The setups of one run of `main`, and the configurations its guest objects
generate. -/
structure Run where
  setups : List Setup
  guestConfigs : GuestKind → Dict Text Text

/-- `en_profiler`: some setup of the run has the profiler. -/
def enProfiler (run : Run) : Bool := run.setups.any fun s => s.guests.contains .profiler

def numVms (run : Run) (s : Setup) : ℕ :=
  (if s.guests.length = 1 then 2 else s.guests.length) - if enProfiler run then 1 else 0

/-- `list_cache_colors` of a setup; none if the partitioning raises. -/
def listCacheColors (run : Run) (s : Setup) : Option (List (List Text)) :=
  if s.cacheColoring then
    if s.cacheColoringList ≠ [] then some s.cacheColoringList
    else generateCacheColorsAssignment numCacheColors (numVms run s) minColorsPerVm
  else some []

/-- The call of `generate_tests` for a setup; the profiler takes part if the
setup's name says so. -/
def setupCall (run : Run) (s : Setup) : Option Call :=
  (listCacheColors run s).map fun cacheColors =>
    { guests := s.guests.map fun kind => ⟨kind, run.guestConfigs kind⟩
      includeProfiler := (find "profiling".toList s.name).isSome
      cacheColors := cacheColors
      mbrConfigs := s.mbrSettings }

/-! ### Isolation -/

/-- The colour placeholder of a kind's template; the profiler's has none. -/
def ccToken : GuestKind → Option Text
  | .linux => some linuxCcToken
  | .cache | .embench | .cci => some baremetalCcToken
  | .profiler => none

/-- A configuration generated from its kind's template: the image line and
the VM block, with the placeholder once at the end of a line. -/
def FromTemplate (kind : GuestKind) (config : Text) : Prop :=
  config ≠ [] ∧ Free ((config.splitOn '\n').headD []) ∧
    match ccToken kind with
    | some tok => Placeholder tok (config.splitOn '\n').tail
    | none => ∀ l ∈ (config.splitOn '\n').tail, Free l

/-- A setup of the run that is to be coloured automatically and whose guests,
all different, contribute one VM block to each combination. -/
structure Accepted (run : Run) (s : Setup) : Prop where
  mem : s ∈ run.setups
  coloring : s.cacheColoring = true
  no_list : s.cacheColoringList = []
  guests_ne : s.guests ≠ []
  guests_nodup : s.guests.Nodup
  configs_ne : ∀ kind ∈ s.guests, (run.guestConfigs kind).items ≠ []
  profiling : .profiler ∈ s.guests → (find "profiling".toList s.name).isSome
  templates : ∀ kind ∈ s.guests, ∀ e ∈ (run.guestConfigs kind).items, FromTemplate kind e.2
  plain : ∀ v ∈ s.mbrSettings, PlainMbr v

/-- A text of the call in which the VM blocks are isolated: it is the text of
a combination in which each VM block that carries a placeholder has its own
mask, the masks are disjoint and have two colours at least, and no colour
placeholder is left. -/
def IsolatedText (c : Call) (text : Text) : Prop :=
  let groups := configGroups c.guests c.includeProfiler
  ∃ combo ∈ combos groups, ∃ (masks : List Text) (values : List ℕ),
    let config := comboConfig (enableProfiler groups) combo
    masks.length = (config.vmConfigs.filter carries).length ∧
    masks.map intOfHex = values.map (fun v : ℕ => some (v : ℤ)) ∧
    values.Pairwise (fun v w => v &&& w = 0) ∧
    (∀ v ∈ values, 2 ≤ popcount v) ∧
    text ∈ mbrTexts (mitigation numCacheColors c) (configContent c.includeProfiler
      { config with vmConfigs := colorVms masks config.vmConfigs }) ∧
    ¬ linuxCcToken <:+: text ∧ ¬ baremetalCcToken <:+: text

/-- The setup gets its files, and in each of them the VMs are isolated. -/
def Isolated (run : Run) (listConfigs : List Text) (s : Setup) : Prop :=
  ∃ c files names, setupCall run s = some c ∧
    generateTests numCacheColors listConfigs c = some (files, names) ∧
    ∀ e ∈ files.items, IsolatedText c e.2

/-! ### The VM blocks of a combination -/

/-- The guest objects of a setup. -/
def guestObjs (run : Run) (s : Setup) : List Guest :=
  s.guests.map fun kind => ⟨kind, run.guestConfigs kind⟩

theorem items_groupConfigs (run : Run) {s : Setup} (hnd : s.guests.Nodup) (kind : GuestKind) :
    (groupConfigs (guestObjs run s) kind).items =
      if kind ∈ s.guests then (run.guestConfigs kind).items else [] := by
  have hfilter : (guestObjs run s).filter (fun g => g.kind = kind) =
      if kind ∈ s.guests then [⟨kind, run.guestConfigs kind⟩] else [] := by
    have hkinds : s.guests.filter (fun k => k = kind) = if kind ∈ s.guests then [kind] else [] := by
      rw [List.filter_eq]
      split
      · rename_i hk
        rw [List.count_eq_one_of_mem hnd hk]
        rfl
      · rename_i hk
        rw [List.count_eq_zero_of_not_mem hk]
        rfl
    rw [guestObjs, List.filter_map]
    simp only [Function.comp_def, hkinds]
    split <;> rfl
  rw [groupConfigs, hfilter]
  split
  · exact Dict.items_ofList (run.guestConfigs kind).nodup
  · rfl

/-- An item of a group comes from a template, or the group is empty. -/
theorem item_cases {run : Run} {s : Setup} (h : Accepted run s) {kind : GuestKind}
    {item : Text × Text} (hitem : item ∈ normalized (groupConfigs (guestObjs run s) kind)) :
    (kind ∈ s.guests ∧ FromTemplate kind item.2) ∨ (kind ∉ s.guests ∧ item = ([], [])) := by
  have hitems := items_groupConfigs run h.guests_nodup kind
  rw [normalized, hitems] at hitem
  by_cases hk : kind ∈ s.guests
  · rw [if_pos hk, if_neg (h.configs_ne kind hk)] at hitem
    exact .inl ⟨hk, h.templates kind hk item hitem⟩
  · rw [if_neg hk, if_pos rfl, List.mem_singleton] at hitem
    exact .inr ⟨hk, hitem⟩

/-- The VM blocks of one item of a combination. -/
def itemVms (item : Text × Text) : List (List Text) :=
  if item.2 = [] then [] else [(item.2.splitOn '\n').tail]

theorem vmConfigs_eq (enableProfiler : Bool) (combo : List (Text × Text)) :
    (comboConfig enableProfiler combo).vmConfigs = combo.flatMap itemVms := by
  rw [comboConfig, comboGuests]
  induction combo with
  | nil => rfl
  | cons item combo ih =>
    rw [List.flatMap_cons, ← ih, itemVms]
    by_cases hi : item.2 = []
    · rw [List.filter_cons_of_neg (by simpa using hi), if_pos hi, List.nil_append]
    · rw [List.filter_cons_of_pos (by simpa using hi), if_neg hi]
      rfl

theorem length_itemVms {run : Run} {s : Setup} (h : Accepted run s) {kind : GuestKind}
    {item : Text × Text} (hitem : item ∈ normalized (groupConfigs (guestObjs run s) kind)) :
    (itemVms item).length = if kind ∈ s.guests then 1 else 0 := by
  rcases item_cases h hitem with ⟨hk, ht⟩ | ⟨hk, rfl⟩
  · rw [itemVms, if_neg ht.1, if_pos hk]
    rfl
  · rw [if_neg hk]
    rfl

theorem placeholder_itemVms {run : Run} {s : Setup} (h : Accepted run s) {kind : GuestKind}
    {tok : Text} (hkind : ccToken kind = some tok) {item : Text × Text}
    (hitem : item ∈ normalized (groupConfigs (guestObjs run s) kind)) :
    ∀ vm ∈ itemVms item, Placeholder tok vm := by
  rcases item_cases h hitem with ⟨-, ht⟩ | ⟨-, rfl⟩
  · obtain ⟨hne, -, hvm⟩ := ht
    rw [hkind] at hvm
    rw [itemVms, if_neg hne]
    exact fun vm hmem => by rwa [List.mem_singleton.mp hmem]
  · exact fun vm hmem => by cases hmem

/-- A combination of an accepted setup, by its VM blocks. -/
structure ComboBlocks (s : Setup) (config : GuestConfig)
    (linuxVms baremetalVms freeVms : List (List Text)) : Prop where
  vms : config.vmConfigs = linuxVms ++ baremetalVms ++ freeVms
  blocks : Blocks linuxVms baremetalVms freeVms
  length : (linuxVms ++ baremetalVms).length = (s.guests.filter fun k => k ≠ .profiler).length
  free : .profiler ∉ s.guests → freeVms = []
  images : ∀ l ∈ config.vmImages, Around l
  newline : ∀ l ∈ config.vmConfigs.flatten, '\n' ∉ l

/-- The kinds of a setup's guests that are coloured. -/
theorem length_coloured {guests : List GuestKind} (hnd : guests.Nodup) :
    (guests.filter fun k => k ≠ .profiler).length =
      (if .linux ∈ guests then 1 else 0) + ((if .cache ∈ guests then 1 else 0) +
        ((if .embench ∈ guests then 1 else 0) + if .cci ∈ guests then 1 else 0)) := by
  have hperm : (guests.filter fun k => k ≠ .profiler).Perm
      ([.linux, .cache, .embench, .cci].filter fun k : GuestKind => k ∈ guests) := by
    refine (List.perm_ext_iff_of_nodup (hnd.filter _) (List.Nodup.filter _ (by decide))).mpr fun k => ?_
    cases k <;> simp
  rw [hperm.length_eq, ← List.countP_eq_length_filter]
  simp only [List.countP_cons, List.countP_nil, decide_eq_true_eq]
  omega

/-- An item's kind is one of those the groups are for. -/
theorem mem_combos {guests : List Guest} {includeProfiler : Bool} {combo : List (Text × Text)}
    (h : combo ∈ combos (configGroups guests includeProfiler)) :
    ∃ linux cache embench cci rest, combo = [linux, cache, embench, cci] ++ rest ∧
      linux ∈ normalized (groupConfigs guests .linux) ∧
      cache ∈ normalized (groupConfigs guests .cache) ∧
      embench ∈ normalized (groupConfigs guests .embench) ∧
      cci ∈ normalized (groupConfigs guests .cci) ∧
      ∀ item ∈ rest, includeProfiler ∧ item ∈ normalized (groupConfigs guests .profiler) := by
  have hmem := mem_product.mp h
  rw [configGroups] at hmem
  simp only [List.cons_append, List.nil_append, List.map_cons] at hmem
  obtain _ | ⟨hlinux, _ | ⟨hcache, _ | ⟨hembench, _ | ⟨hcci, hrest⟩⟩⟩⟩ := hmem
  refine ⟨_, _, _, _, _, rfl, hlinux, hcache, hembench, hcci, ?_⟩
  cases includeProfiler with
  | false =>
    rw [List.forall₂_nil_right_iff.mp hrest]
    exact fun item hitem => by cases hitem
  | true =>
    obtain _ | ⟨hprofiler, hrest⟩ := hrest
    rw [List.forall₂_nil_right_iff.mp hrest]
    exact fun item hitem => ⟨rfl, by rwa [List.mem_singleton.mp hitem]⟩

/-- The lines of an item that comes from a template or is empty. -/
theorem around_item {run : Run} {s : Setup} (h : Accepted run s) {kind : GuestKind}
    {item : Text × Text} (hitem : item ∈ normalized (groupConfigs (guestObjs run s) kind))
    (hne : item.2 ≠ []) : Around ((item.2.splitOn '\n').headD []) := by
  rcases item_cases h hitem with ⟨-, ht⟩ | ⟨-, rfl⟩
  · refine ⟨?_, ht.2.1⟩
    rw [List.headD_eq_head?_getD, List.head?_eq_some_head (List.splitOn_ne_nil _ _)]
    exact notMem_of_mem_splitOn (List.head_mem _)
  · exact absurd rfl hne

theorem exists_comboBlocks {run : Run} {s : Setup} (h : Accepted run s) {combo : List (Text × Text)}
    (hcombo : combo ∈ combos (configGroups (guestObjs run s) (find "profiling".toList s.name).isSome))
    (enableProfiler : Bool) : ∃ linuxVms baremetalVms freeVms,
      ComboBlocks s (comboConfig enableProfiler combo) linuxVms baremetalVms freeVms := by
  obtain ⟨linux, cache, embench, cci, rest, rfl, hlinux, hcache, hembench, hcci, hrest⟩ :=
    mem_combos hcombo
  have hkind : ∀ item ∈ [linux, cache, embench, cci] ++ rest,
      ∃ kind, item ∈ normalized (groupConfigs (guestObjs run s) kind) := by
    refine List.forall_mem_append.mpr ⟨fun item hmem => ?_, fun item hmem => ⟨_, (hrest item hmem).2⟩⟩
    simp only [List.mem_cons, List.not_mem_nil, or_false] at hmem
    rcases hmem with rfl | rfl | rfl | rfl
    · exact ⟨_, hlinux⟩
    · exact ⟨_, hcache⟩
    · exact ⟨_, hembench⟩
    · exact ⟨_, hcci⟩
  refine ⟨itemVms linux, itemVms cache ++ (itemVms embench ++ itemVms cci), rest.flatMap itemVms,
    ?_, ⟨?_, ?_, ?_⟩, ?_, ?_, ?_, ?_⟩
  · rw [vmConfigs_eq, List.flatMap_append]
    simp [List.flatMap_cons]
  · exact placeholder_itemVms h rfl hlinux
  · intro vm hvm
    rcases List.mem_append.mp hvm with hvm | hvm
    · exact placeholder_itemVms h rfl hcache vm hvm
    · rcases List.mem_append.mp hvm with hvm | hvm
      · exact placeholder_itemVms h rfl hembench vm hvm
      · exact placeholder_itemVms h rfl hcci vm hvm
  · intro vm hvm
    obtain ⟨item, hmem, hvm⟩ := List.mem_flatMap.mp hvm
    rcases item_cases h (hrest item hmem).2 with ⟨-, ht⟩ | ⟨-, rfl⟩
    · rw [itemVms, if_neg ht.1, List.mem_singleton] at hvm
      subst hvm
      exact ht.2.2
    · cases hvm
  · rw [length_coloured h.guests_nodup, List.length_append, List.length_append, List.length_append,
      length_itemVms h hlinux, length_itemVms h hcache, length_itemVms h hembench,
      length_itemVms h hcci]
  · intro hprof
    refine List.flatMap_eq_nil_iff.mpr fun item hmem => ?_
    rcases item_cases h (hrest item hmem).2 with ⟨hk, -⟩ | ⟨-, rfl⟩
    · exact absurd hk hprof
    · rfl
  · intro l hl
    obtain ⟨item, hmem, rfl⟩ := List.mem_map.mp hl
    obtain ⟨hmem, hne⟩ := List.mem_filter.mp hmem
    obtain ⟨kind, hitem⟩ := hkind item hmem
    exact around_item h hitem (by simpa using hne)
  · intro l hl
    obtain ⟨vm, hvm, hl⟩ := List.mem_flatten.mp hl
    obtain ⟨item, -, rfl⟩ := List.mem_map.mp hvm
    exact notMem_of_mem_splitOn (List.mem_of_mem_tail hl)

/-! ### The masks -/

theorem enProfiler_of_mem {run : Run} {s : Setup} (hs : s ∈ run.setups) (hp : .profiler ∈ s.guests) :
    enProfiler run = true :=
  List.any_eq_true.mpr ⟨s, hs, List.contains_iff_mem.mpr hp⟩

theorem length_guests {guests : List GuestKind} (hnd : guests.Nodup) :
    guests.length = (guests.filter fun k => k ≠ .profiler).length +
      if .profiler ∈ guests then 1 else 0 := by
  have hcount := List.length_eq_countP_add_countP (fun k => k ≠ .profiler) (l := guests)
  have hprof : guests.countP (fun k => ¬ decide (k ≠ .profiler)) = guests.count .profiler := by
    refine List.countP_congr fun k _ => ?_
    cases k <;> simp
  rw [List.countP_eq_length_filter, hprof] at hcount
  rw [hcount]
  split
  · rename_i hp
    rw [List.count_eq_one_of_mem hnd hp]
  · rename_i hp
    rw [List.count_eq_zero_of_not_mem hp]

theorem length_coloured_le {guests : List GuestKind} (hnd : guests.Nodup) :
    (guests.filter fun k => k ≠ .profiler).length ≤ 4 := by
  rw [length_coloured hnd]
  split <;> split <;> split <;> split <;> omega

/-- There are partitions, for the number of VMs computed. -/
theorem exists_listCacheColors {run : Run} {s : Setup} (h : Accepted run s) :
    ∃ colors, listCacheColors run s = some colors ∧ colors ≠ [] ∧ ∀ masks ∈ colors,
      ∃ parts, Split numCacheColors (numVms run s) minColorsPerVm parts ∧
        masks = (runs 0 parts).map hex := by
  have hlen := length_guests h.guests_nodup
  have hle := length_coloured_le h.guests_nodup
  have hpos := List.length_pos_iff.mpr h.guests_ne
  have hv : 0 < numVms run s ∧ numVms run s ≤ 4 := by
    rw [numVms]
    by_cases hp : .profiler ∈ s.guests
    · rw [if_pos (enProfiler_of_mem h.mem hp)]
      rw [if_pos hp] at hlen
      split <;> omega
    · rw [if_neg hp] at hlen
      split <;> split <;> omega
  refine ⟨(splits numCacheColors (numVms run s) minColorsPerVm).map fun parts =>
    (runs 0 parts).map hex, ?_, ?_, fun masks hmasks => ?_⟩
  · rw [listCacheColors, if_pos h.coloring, if_neg (by simp [h.no_list])]
    exact generateCacheColorsAssignment_eq hv.1
  · rw [Ne, List.map_eq_nil_iff, splits_eq_nil hv.1 (by decide), numCacheColors, minColorsPerVm]
    omega
  · obtain ⟨parts, hparts, rfl⟩ := List.mem_map.mp hmasks
    exact ⟨parts, (mem_splits hv.1 (by decide)).mp hparts, rfl⟩

theorem plain_hex (n : ℕ) : Plain (hex n) :=
  ⟨notMem_hex (by decide) (by decide) (by decide) n, notMem_hex (by decide) (by decide) (by decide) n⟩

theorem plain_masks (parts : List ℕ) : ∀ m ∈ (runs 0 parts).map hex, Plain m := fun m hm => by
  obtain ⟨v, -, rfl⟩ := List.mem_map.mp hm
  exact plain_hex v

/-- Only as many colours are used as there are blocks to colour. -/
theorem colorVms_take : ∀ (vms : List (List Text)) (colors : List Text),
    colorVms (colors.take (vms.filter carries).length) vms = colorVms colors vms
  | [], colors => by cases colors <;> rfl
  | vm :: vms, [] => by simp
  | vm :: vms, color :: colors => by
    by_cases hc : carries vm
    · rw [List.filter_cons_of_pos hc, List.length_cons, List.take_succ_cons, colorVms, if_pos hc,
        colorVms, if_pos hc, colorVms_take vms colors]
    · have ih := colorVms_take vms (color :: colors)
      rw [List.filter_cons_of_neg hc, colorVms, if_neg hc, ← ih]
      cases hlen : (vms.filter carries).length with
      | zero => simp
      | succ n => rw [List.take_succ_cons, colorVms, if_neg hc]

/-- The blocks that carry a placeholder are the coloured guests'. -/
theorem ComboBlocks.length_carries {s : Setup} {config : GuestConfig}
    {linuxVms baremetalVms freeVms : List (List Text)}
    (h : ComboBlocks s config linuxVms baremetalVms freeVms) :
    (config.vmConfigs.filter carries).length = (s.guests.filter fun k => k ≠ .profiler).length := by
  have hcarry : ∀ vm ∈ linuxVms ++ baremetalVms, carries vm = true := fun vm hvm =>
    (List.mem_append.mp hvm).elim (fun hvm => (h.blocks.linux vm hvm).carries (.inl rfl))
      fun hvm => (h.blocks.baremetal vm hvm).carries (.inr rfl)
  have hnot : ∀ vm ∈ freeVms, ¬ carries vm = true := fun vm hvm => by
    simp [carries_free (h.blocks.free vm hvm)]
  rw [h.vms, List.filter_append, List.filter_eq_self.mpr hcarry, List.filter_eq_nil_iff.mpr hnot,
    List.append_nil, h.length]

/-! ### When the VMs are isolated -/

/-- The masks of the first `n` VMs of a partition. -/
theorem masks_take {numBits vms : ℕ} {parts : List ℕ} (h : Split numBits vms minColorsPerVm parts)
    (n : ℕ) : (((runs 0 parts).map hex).take n).map intOfHex =
        ((runs 0 parts).take n).map (fun v : ℕ => some (v : ℤ)) ∧
      ((runs 0 parts).take n).Pairwise (fun v w => v &&& w = 0) ∧
      ∀ v ∈ (runs 0 parts).take n, 2 ≤ popcount v := by
  refine ⟨?_, (runs_disjoint 0 parts).sublist (List.take_sublist _ _), fun v hv => ?_⟩
  · rw [← List.map_take, List.map_map]
    exact List.map_congr_left fun v _ => intOfHex_hex v
  · have hmem : popcount v ∈ (runs 0 parts).map popcount :=
      List.mem_map_of_mem (List.mem_of_mem_take hv)
    rw [map_popcount_runs] at hmem
    exact h.min_le _ hmem

/-- A text of a bandwidth variant, by lines. -/
theorem mbrTexts_lines {c : Call} (hplain : ∀ v ∈ c.mbrConfigs, PlainMbr v) {ls : List Text}
    (hls : ∀ l ∈ ls, '\n' ∉ l) {text : Text}
    (htext : text ∈ mbrTexts (mitigation numCacheColors c) (unlines '\n' ls)) :
    ∃ ls', text = unlines '\n' ls' ∧ MbrLines ls ls' := by
  rw [mbrTexts] at htext
  split at htext
  · rw [List.mem_singleton.mp htext]
    exact removePatterns_lines hls
  · obtain ⟨v, hv, rfl⟩ := List.mem_map.mp htext
    exact mbrText_lines (hplain v hv) hls

/-- What the files of a call hold: the text of a combination whose VM blocks
are coloured by one of the partitions, in one of the bandwidth variants. -/
theorem exists_partition {run : Run} {s : Setup} (h : Accepted run s) (listConfigs : List Text) :
    ∃ c files names, setupCall run s = some c ∧ c.mbrConfigs = s.mbrSettings ∧
      generateTests numCacheColors listConfigs c = some (files, names) ∧ files.items ≠ [] ∧
      ∀ e ∈ files.items, ∃ combo ∈ combos (configGroups c.guests c.includeProfiler),
        ∃ linuxVms baremetalVms freeVms parts,
        let config := comboConfig (enableProfiler (configGroups c.guests c.includeProfiler)) combo
        ComboBlocks s config linuxVms baremetalVms freeVms ∧
        Split numCacheColors (numVms run s) minColorsPerVm parts ∧
        e.2 ∈ mbrTexts (mitigation numCacheColors c) (configContent c.includeProfiler
          { config with vmConfigs := colorVms ((runs 0 parts).map hex) config.vmConfigs }) := by
  obtain ⟨colors, hcolors, hne, hparts⟩ := exists_listCacheColors h
  have hcall : setupCall run s = some
      ⟨guestObjs run s, (find "profiling".toList s.name).isSome, colors, s.mbrSettings⟩ := by
    rw [setupCall, hcolors]
    rfl
  set c : Call := ⟨guestObjs run s, (find "profiling".toList s.name).isSome, colors, s.mbrSettings⟩
  have hhex : HexColors (mitigation numCacheColors c) := fun masks hmasks mask hmask => by
    obtain ⟨parts, -, rfl⟩ := hparts masks hmasks
    obtain ⟨v, -, rfl⟩ := List.mem_map.mp hmask
    rw [intOfHex_hex]
    rfl
  obtain ⟨files, names, hfiles, hfne, htexts⟩ := generateTests_files numCacheColors listConfigs hhex
  refine ⟨c, files, names, hcall, rfl, hfiles, hfne, fun e he => ?_⟩
  obtain ⟨combo, hcombo, content, hcontent, htext⟩ := htexts e he
  obtain ⟨linuxVms, baremetalVms, freeVms, hb⟩ := exists_comboBlocks h hcombo
    (enableProfiler (configGroups c.guests c.includeProfiler))
  have hne' : (mitigation numCacheColors c).cacheColors ≠ [] := hne
  rw [colorTexts, if_neg hne'] at hcontent
  obtain ⟨masks, hmasks, rfl⟩ := List.mem_map.mp hcontent
  obtain ⟨parts, hsplit, rfl⟩ := hparts masks hmasks
  refine ⟨combo, hcombo, linuxVms, baremetalVms, freeVms, parts, hb, hsplit, ?_⟩
  rwa [← colorText_configContent c.includeProfiler hb.images hb.newline hb.vms hb.blocks
    (plain_masks parts)]

/-- A colour placeholder at the end of a line stays in the text. -/
theorem token_infix {c : Call} (hplain : ∀ v ∈ c.mbrConfigs, PlainMbr v) {ls : List Text}
    (hls : ∀ l ∈ ls, '\n' ∉ l) {text pre tok : Text} (ht : IsCcToken tok) (hmem : pre ++ tok ∈ ls)
    (htext : text ∈ mbrTexts (mitigation numCacheColors c) (unlines '\n' ls)) : tok <:+: text := by
  obtain ⟨ls', rfl, hlines⟩ := mbrTexts_lines hplain hls htext
  have hsuf : tok <:+ pre ++ tok := List.suffix_append _ _
  have hnot : ¬ baremetalMbrToken <:+ pre ++ tok ∧ ¬ linuxMbrToken <:+ pre ++ tok := by
    rcases ht with rfl | rfl
    · exact ⟨not_suffix_of_suffix (by decide) (by decide) hsuf,
        not_suffix_of_suffix (by decide) (by decide) hsuf⟩
    · exact ⟨not_suffix_of_suffix (by decide) (by decide) hsuf,
        not_suffix_of_suffix (by decide) (by decide) hsuf⟩
  obtain ⟨l₁, l₂, hl⟩ := List.append_of_mem (hlines.mem _ hmem hnot.1 hnot.2)
  rw [hl, unlines_append]
  refine List.IsInfix.trans ?_ (List.suffix_append _ _).isInfix
  exact ⟨pre, '\n' :: unlines '\n' l₂, by simp [unlines]⟩

/-- Lines without colour placeholder stay without. -/
theorem not_token_infix {c : Call} (hplain : ∀ v ∈ c.mbrConfigs, PlainMbr v) {ls : List Text}
    (hls : ∀ l ∈ ls, '\n' ∉ l) (hfree : ∀ l ∈ ls, Free l) {text : Text}
    (htext : text ∈ mbrTexts (mitigation numCacheColors c) (unlines '\n' ls)) :
    ¬ linuxCcToken <:+: text ∧ ¬ baremetalCcToken <:+: text := by
  obtain ⟨ls', rfl, hlines⟩ := mbrTexts_lines hplain hls htext
  refine ⟨fun hin => ?_, fun hin => ?_⟩
  · obtain ⟨l, hl, hin⟩ := infix_unlines (by decide) (by decide) hin
    exact (hlines.free hfree l hl).1 hin
  · obtain ⟨l, hl, hin⟩ := infix_unlines (by decide) (by decide) hin
    exact (hlines.free hfree l hl).2 hin

/-- The setups that get a partition too few. -/
def Short (run : Run) (s : Setup) : Prop :=
  enProfiler run = true ∧ .profiler ∉ s.guests ∧ 2 ≤ s.guests.length

/-- There are masks enough unless the setup is short. -/
theorem numVms_lt_iff {run : Run} {s : Setup} (h : Accepted run s) :
    numVms run s < (s.guests.filter fun k => k ≠ .profiler).length ↔ Short run s := by
  have hlen := length_guests h.guests_nodup
  have hpos := List.length_pos_iff.mpr h.guests_ne
  rw [numVms, Short]
  by_cases hp : .profiler ∈ s.guests
  · rw [if_pos (enProfiler_of_mem h.mem hp)]
    rw [if_pos hp] at hlen
    refine ⟨fun hlt => ?_, fun hs => absurd hp hs.2.1⟩
    split at hlt <;> omega
  · rw [if_neg hp] at hlen
    cases hen : enProfiler run with
    | false =>
      refine ⟨fun hlt => ?_, fun hs => absurd hs.1 (by decide)⟩
      simp only [Bool.false_eq_true, if_false] at hlt
      split at hlt <;> omega
    | true =>
      simp only [if_true]
      constructor
      · intro hlt
        refine ⟨trivial, hp, ?_⟩
        split at hlt <;> omega
      · rintro ⟨-, -, hg⟩
        rw [if_neg (by omega)]
        omega

/-- In a short setup all blocks carry a placeholder, and the last one gets no mask. -/
theorem not_isolated_of_short {run : Run} {s : Setup} {listConfigs : List Text}
    (h : Accepted run s) (hshort : Short run s) : ¬ Isolated run listConfigs s := by
  obtain ⟨c, files, names, hcall, hmbr, hfiles, hfne, htexts⟩ := exists_partition h listConfigs
  have hplain : ∀ v ∈ c.mbrConfigs, PlainMbr v := fun v hv => h.plain v (by rwa [← hmbr])
  rintro ⟨c', files', names', hcall', hfiles', hiso⟩
  obtain rfl : c = c' := Option.some.inj (hcall.symm.trans hcall')
  obtain ⟨rfl, rfl⟩ := Prod.mk.inj (Option.some.inj (hfiles.symm.trans hfiles'))
  obtain ⟨e, he⟩ := List.exists_mem_of_ne_nil _ hfne
  obtain ⟨combo, -, linuxVms, baremetalVms, freeVms, parts, hb, hsplit, htext⟩ := htexts e he
  obtain ⟨head, tail, -, hlines, hnl⟩ := exists_lines c.includeProfiler hb.images hb.newline hb.vms
    hb.blocks (plain_masks parts)
  have hlt := (numVms_lt_iff h).mpr hshort
  obtain ⟨pre, tok, ht, hmem⟩ := exists_token_colorVms (linuxVms ++ baremetalVms)
    ((runs 0 parts).map hex) (fun vm hvm => by
      rcases List.mem_append.mp hvm with hvm | hvm
      · exact ⟨_, .inl rfl, hb.blocks.linux vm hvm⟩
      · exact ⟨_, .inr rfl, hb.blocks.baremetal vm hvm⟩)
    (by rw [List.length_map, length_runs, hsplit.length_eq, hb.length]; exact hlt)
  rw [hlines] at htext
  have hin := token_infix hplain hnl ht (List.mem_append_left _ (List.mem_append_right _ (by
    rw [hb.vms, hb.free hshort.2.1, List.append_nil]
    exact hmem))) htext
  obtain ⟨_, _, _, _, -, -, -, -, -, hnotl, hnotb⟩ := hiso e he
  rcases ht with rfl | rfl
  · exact hnotl hin
  · exact hnotb hin

theorem isolated_of_not_short {run : Run} {s : Setup} (listConfigs : List Text)
    (h : Accepted run s) (hshort : ¬ Short run s) : Isolated run listConfigs s := by
  obtain ⟨c, files, names, hcall, hmbr, hfiles, -, htexts⟩ := exists_partition h listConfigs
  have hplain : ∀ v ∈ c.mbrConfigs, PlainMbr v := fun v hv => h.plain v (by rwa [← hmbr])
  have hlt := mt (numVms_lt_iff h).mp hshort
  refine ⟨c, files, names, hcall, hfiles, fun e he => ?_⟩
  obtain ⟨combo, hcombo, linuxVms, baremetalVms, freeVms, parts, hb, hsplit, htext⟩ := htexts e he
  obtain ⟨head, tail, hfree, hlines, hnl⟩ := exists_lines c.includeProfiler hb.images hb.newline
    hb.vms hb.blocks (plain_masks parts)
  obtain ⟨hints, hdisj, hcols⟩ := masks_take hsplit (s.guests.filter fun k => k ≠ .profiler).length
  have hcarries := hb.length_carries
  have hlen : (linuxVms ++ baremetalVms).length ≤ ((runs 0 parts).map hex).length := by
    rw [hb.length, List.length_map, length_runs, hsplit.length_eq]
    omega
  refine ⟨combo, hcombo, ((runs 0 parts).map hex).take (s.guests.filter fun k => k ≠ .profiler).length,
    (runs 0 parts).take (s.guests.filter fun k => k ≠ .profiler).length, ?_, hints, hdisj, hcols, ?_, ?_⟩
  · rw [hcarries, List.length_take, List.length_map, length_runs, hsplit.length_eq]
    omega
  · rw [← hcarries, colorVms_take]
    exact htext
  · rw [hlines] at htext
    refine not_token_infix hplain hnl ?_ htext
    refine List.forall_mem_append.mpr ⟨List.forall_mem_append.mpr
      ⟨fun l hl => hfree l (List.mem_append_left _ hl), ?_⟩,
      fun l hl => hfree l (List.mem_append_right _ hl)⟩
    rw [hb.vms]
    exact hb.blocks.free_colorVms (plain_masks parts) hlen

/-- **Main result.** In an accepted setup the VMs of every file are isolated,
unless another setup of the run has the profiler, this one does not, and it
has more than one guest. -/
theorem isolated_iff (run : Run) (s : Setup) (listConfigs : List Text) (h : Accepted run s) :
    Isolated run listConfigs s ↔
      ¬ (enProfiler run = true ∧ .profiler ∉ s.guests ∧ 2 ≤ s.guests.length) :=
  ⟨fun hiso hshort => not_isolated_of_short h hshort hiso, isolated_of_not_short listConfigs h⟩

/-- A Linux and a cache guest in one setup, a Linux guest and the profiler in
another of the same run. -/
def sharedRun : Run where
  setups :=
    [⟨"linux_cache".toList, [.linux, .cache], true, [], []⟩,
      ⟨"linux_profiling".toList, [.linux, .profiler], true, [], []⟩]
  guestConfigs
    | .linux => .ofList [("linux".toList,
        "VM_IMAGE(linux_image)\n\t#linux_cache_coloring_config#\n\t.cpu_num = 1,".toList)]
    | .cache => .ofList [("cache".toList,
        "VM_IMAGE(baremetal_cache)\n\t#baremetal_cache_coloring_config#\n\t.cpu_num = 1,".toList)]
    | .profiler => .ofList [("profile".toList, "VM_IMAGE(profiler_image)\n\t.cpu_num = 1,".toList)]
    | .embench | .cci => .empty

/-- Its setup without profiler. -/
def unprofiledSetup : Setup := ⟨"linux_cache".toList, [.linux, .cache], true, [], []⟩

theorem fromTemplate_linux : FromTemplate .linux
    "VM_IMAGE(linux_image)\n\t#linux_cache_coloring_config#\n\t.cpu_num = 1,".toList :=
  ⟨by decide, by decide +kernel, [], ['\t'], ["\t.cpu_num = 1,".toList], by decide +kernel, by decide,
    by decide +kernel⟩

theorem fromTemplate_cache : FromTemplate .cache
    "VM_IMAGE(baremetal_cache)\n\t#baremetal_cache_coloring_config#\n\t.cpu_num = 1,".toList :=
  ⟨by decide, by decide +kernel, [], ['\t'], ["\t.cpu_num = 1,".toList], by decide +kernel, by decide,
    by decide +kernel⟩

theorem accepted_unprofiledSetup : Accepted sharedRun unprofiledSetup where
  mem := List.mem_cons_self
  coloring := rfl
  no_list := rfl
  guests_ne := by decide
  guests_nodup := by decide
  configs_ne := by decide +kernel
  profiling := by decide
  templates := by
    intro kind hkind e he
    rcases List.mem_cons.mp hkind with rfl | hkind
    · obtain rfl := List.mem_singleton.mp he
      exact fromTemplate_linux
    · obtain rfl := List.mem_singleton.mp hkind
      obtain rfl := List.mem_singleton.mp he
      exact fromTemplate_cache
  plain := by
    intro v hv
    cases hv

theorem isolated_iff_unprofiledSetup : Isolated sharedRun [] unprofiledSetup ↔
    ¬ (enProfiler sharedRun = true ∧ .profiler ∉ unprofiledSetup.guests ∧
      2 ≤ unprofiledSetup.guests.length) :=
  isolated_iff sharedRun unprofiledSetup [] accepted_unprofiledSetup

/-- The profiler of the other setup costs the cache guest its mask: its
placeholder is left in the text. -/
theorem unprofiledSetup_not_isolated :
    Accepted sharedRun unprofiledSetup ∧ ¬ Isolated sharedRun [] unprofiledSetup := by
  refine ⟨accepted_unprofiledSetup, ?_⟩
  rintro ⟨c, files, names, hcall, hfiles, hiso⟩
  have heval : ((setupCall sharedRun unprofiledSetup).bind (generateTests numCacheColors [])).map
      (fun o => o.1.items.map fun e => decide (baremetalCcToken <:+: e.2)) = some [true] := by
    decide +kernel
  rw [hcall, Option.bind_some, hfiles, Option.map_some, Option.some.injEq] at heval
  obtain ⟨e, he, hin⟩ := List.mem_map.mp (heval ▸ List.mem_singleton_self true)
  obtain ⟨_, _, _, _, -, -, -, -, -, -, hnot⟩ := hiso e he
  exact hnot (of_decide_eq_true hin)

end TestEngine
end DaatMcs
