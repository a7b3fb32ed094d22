/-
# Combining the guests of a setup

`generate_tests` forms every combination of the guests of a setup, one of
each group. `combine_guests` appends the name of each combination to the
engine's `list_configs`; `generate_configs` writes the texts and looks the
names up again by position; the mitigation step leaves the final names in the
list. Nothing empties the list in between, so from the second setup on the
positions are those of names left by the setup before.

The names a call leaves are those of its combinations, each with the tags of
its variants (`engineStep_eq`). So in a run every text gets the name of its
own guests if each call is given the names it would append anyway, first in
the list of the call before; where the names and texts are distinct this is
also necessary (`namesRight_run`).
-/
import DaatMcs.Generator.TripleNames
import DaatMcs.Lib.Combinations
import DaatMcs.Lib.Steps

namespace DaatMcs
namespace TestEngine

open Steps

/-- The kinds of guest objects `generate_tests` tells apart. -/
inductive GuestKind
  | linux
  | cache
  | embench
  | cci
  | profiler
deriving DecidableEq

/-- A guest object, by the configurations it generates from its template. -/
structure Guest where
  kind : GuestKind
  configs : Dict Text Text

/-- The parts of a configuration that depend on the combination; preamble
and list headings are the same in all. -/
structure GuestConfig where
  vmImages : List Text
  vmConfigs : List (List Text)
  enableProfiler : Bool

/-! ### Combinations -/

/-- The configurations of all guests of one kind. -/
def groupConfigs (guests : List Guest) (kind : GuestKind) : Dict Text Text :=
  (guests.filter fun g => g.kind = kind).foldl (fun d g => d.update g.configs.items) .empty

/-- `config_groups`, in order; the profiler's group only if it is included. -/
def configGroups (guests : List Guest) (includeProfiler : Bool) : List (Text × Dict Text Text) :=
  [("linux".toList, groupConfigs guests .linux), ("cache".toList, groupConfigs guests .cache),
    ("embench".toList, groupConfigs guests .embench), ("cci".toList, groupConfigs guests .cci)] ++
  if includeProfiler then [("profiler".toList, groupConfigs guests .profiler)] else []

/-- The items of a group, one empty item for an empty group. -/
def normalized (cfg : Dict Text Text) : List (Text × Text) :=
  if cfg.items = [] then [([], [])] else cfg.items

def enableProfiler (groups : List (Text × Dict Text Text)) : Bool :=
  groups.any fun g => g.1 = "profiler".toList ∧ g.2.items ≠ []

/-- The guests of a combination: groups without configuration are skipped. -/
def comboGuests (combo : List (Text × Text)) : List (Text × Text) := combo.filter fun g => g.2 ≠ []

def comboName (combo : List (Text × Text)) : Text :=
  join "_".toList (((comboGuests combo).map Prod.fst).filter fun name => name ≠ [])

/-- The first line of a guest's configuration is its image, the rest its VM. -/
def comboConfig (enableProfiler : Bool) (combo : List (Text × Text)) : GuestConfig where
  vmImages := (comboGuests combo).map fun g => (g.2.splitOn '\n').headD []
  vmConfigs := (comboGuests combo).map fun g => (g.2.splitOn '\n').tail
  enableProfiler := enableProfiler

/-- The combinations of the groups, in order. -/
def combos (groups : List (Text × Dict Text Text)) : List (List (Text × Text)) :=
  product (groups.map fun g => normalized g.2)

/-- The new `self.list_configs`, the configurations and the largest number of VMs. -/
def combineGuests (listConfigs : List Text) (groups : List (Text × Dict Text Text)) :
    List Text × List GuestConfig × ℕ :=
  let configs := (combos groups).map (comboConfig (enableProfiler groups))
  (listConfigs ++ (combos groups).map comboName, configs,
    (configs.map fun c => c.vmImages.length).foldl max 0)

/-! ### Texts -/

/-- `config_preamble` of `generate_config_placeholder`. -/
def configPreamble : List Text :=
  ["#include <config.h>\n\n".toList,
    "struct config config = \x7b\n".toList,
    "\tCONFIG_HEADER\n".toList,
    "\t.shmemlist_size = 1,".toList,
    "\t.shmemlist = (struct shmem [])\x7b".toList,
    "\t\t[0] = \x7b .size = 0x00010000, \x7d\n".toList,
    "\t\x7d,\n\n".toList]

/-- The profiler section of a configuration. -/
def profilerContent : Text :=
  "\t.en_out_of_core_profiler = true,\n".toList ++
  "\t.out_of_core_profiler = \x7b \n".toList ++
  "\t\t\t\t.num_target_cpus = 3,\n".toList ++
  "\t\t\t\t.num_profile_events = 3,\n".toList ++
  "\t\t\t\t.list_events = (size_t[])\x7b0x03, 0x17, 0x13\x7d,\n".toList ++
  "\t\x7d,\n\n".toList

/-- The text of a configuration. -/
def configContent (includeProfiler : Bool) (config : GuestConfig) : Text :=
  configPreamble.headD [] ++
  join "\n".toList config.vmImages ++ "\n\n".toList ++
  join "\n".toList configPreamble.tail ++
  (if includeProfiler || config.enableProfiler then profilerContent else []) ++
  "\t.vmlist_size = ".toList ++ showNat config.vmImages.length ++ ",\n".toList ++
  "\t.vmlist = \x7b".toList ++ "\n".toList ++
  join "\n".toList config.vmConfigs.flatten ++ "\n".toList ++
  "\t\x7d\n".toList ++
  "\x7d;\n".toList

/-- The texts under the names found at their positions; none is the
`IndexError` of a list too short. -/
def generateConfigs (listConfigs : List Text) (dictConfigs : List GuestConfig)
    (includeProfiler : Bool) : Option (Dict Text Text) :=
  (dictConfigs.zipIdx.mapM fun c =>
    listConfigs[c.2]?.map fun configName => (configName, configContent includeProfiler c.1)).map
      Dict.ofList

/-! ### Calls of `generate_tests` -/

/-- What `generate_tests` is called with for one setup. -/
structure Call where
  guests : List Guest
  includeProfiler : Bool
  cacheColors : List (List Text)
  mbrConfigs : List MbrVariant

/-- The placeholder of Linux guests for the cache colours. -/
def linuxCcToken : Text := "#linux_cache_coloring_config#".toList

def baremetalCcToken : Text := "#baremetal_cache_coloring_config#".toList

def baremetalMbrToken : Text := "#baremetal_mem_br_config#".toList

def linuxMbrToken : Text := "#linux_mem_br_config#".toList

/-- The patterns `generate_tests` compiles, and the variants it passes on. -/
def mitigation (numCacheColors : ℕ) (c : Call) : Mitigation where
  numCacheColors := numCacheColors
  ccPatterns := [linuxCcToken ++ ['\n'], baremetalCcToken ++ ['\n']]
  mbrPatterns := [baremetalMbrToken ++ ['\n'], linuxMbrToken ++ ['\n']]
  cacheColors := c.cacheColors
  mbrConfigs := c.mbrConfigs

/-- What `generate_configs` returns in a call made with the given `list_configs`. -/
def callConfigs (listConfigs : List Text) (c : Call) : Option (Dict Text Text) :=
  let (listConfigs, dictConfigs, _) :=
    combineGuests listConfigs (configGroups c.guests c.includeProfiler)
  generateConfigs listConfigs dictConfigs c.includeProfiler

/-- The configuration files written and the new `list_configs`. -/
def generateTests (numCacheColors : ℕ) (listConfigs : List Text) (c : Call) :
    Option (Dict Text Text × List Text) :=
  (callConfigs listConfigs c).bind
    (generateInterferenceMitigationConfigurations (mitigation numCacheColors c))

/-- The engine between calls. -/
def engineStep (numCacheColors : ℕ) (listConfigs : List Text) (c : Call) : Option (List Text) :=
  (generateTests numCacheColors listConfigs c).map Prod.snd

/-- The combinations of a call, each with the name and the text of its guests. -/
def namedTexts (c : Call) : List (Text × Text) :=
  let groups := configGroups c.guests c.includeProfiler
  (combos groups).map fun combo =>
    (comboName combo, configContent c.includeProfiler (comboConfig (enableProfiler groups) combo))

/-- Every text of the call is stored under the name of its own guests. -/
def NamesRight (listConfigs : List Text) (c : Call) : Prop :=
  ∃ d, callConfigs listConfigs c = some d ∧ ∀ e ∈ d.items, e ∈ namedTexts c

/-- The names a call leaves that stores its texts under their own names. -/
def namesLeft (numCacheColors : ℕ) (c : Call) : List Text :=
  tripleNames (mitigation numCacheColors c) (Dict.ofList (namedTexts c)).items

/-- The call's own names come first in the list, with the own names appended. -/
def OwnFirst (listConfigs : List Text) (c : Call) : Prop :=
  (namedTexts c).map Prod.fst <+: listConfigs ++ (namedTexts c).map Prod.fst

/-- Every call's own names come first in what the call before leaves; after a
colour that is no number there is no further call. -/
def Continued (numCacheColors : ℕ) : List Call → Prop
  | [] => True
  | [_] => True
  | c :: c' :: calls => HexColors (mitigation numCacheColors c) →
      OwnFirst (namesLeft numCacheColors c) c' ∧ Continued numCacheColors (c' :: calls)

/-- The combinations of the call have distinct names and texts, and so have
its variants names. -/
structure Distinct (numCacheColors : ℕ) (c : Call) : Prop where
  names : ((namedTexts c).map Prod.fst).Nodup
  texts : ((namedTexts c).map Prod.snd).Nodup
  left : (namesLeft numCacheColors c).Nodup

/-! ### Right names -/

theorem generateConfigs_eq (includeProfiler : Bool) (listConfigs : List Text)
    (dictConfigs : List GuestConfig) (h : dictConfigs.length ≤ listConfigs.length) :
    generateConfigs listConfigs dictConfigs includeProfiler =
      some (.ofList (listConfigs.zip (dictConfigs.map (configContent includeProfiler)))) := by
  have hmap : ∀ (l : List GuestConfig) (k : ℕ), k + l.length ≤ listConfigs.length →
      ((l.zipIdx k).mapM fun c => listConfigs[c.2]?.map fun configName =>
        (configName, configContent includeProfiler c.1)) =
          some ((listConfigs.drop k).zip (l.map (configContent includeProfiler))) := fun l => by
    induction l with
    | nil => simp
    | cons c l ih =>
      intro k hk
      rw [List.length_cons] at hk
      have hlt : k < listConfigs.length := by omega
      rw [List.zipIdx_cons, List.mapM_cons, ih (k + 1) (by omega), List.drop_eq_getElem_cons hlt,
        List.getElem?_eq_getElem hlt]
      rfl
  rw [generateConfigs, hmap dictConfigs 0 (by omega)]
  rfl

theorem callConfigs_eq (listConfigs : List Text) (c : Call) :
    callConfigs listConfigs c = some (.ofList
      ((listConfigs ++ (namedTexts c).map Prod.fst).zip ((namedTexts c).map Prod.snd))) := by
  simp only [callConfigs, combineGuests]
  rw [generateConfigs_eq _ _ _ (by simp)]
  simp only [namedTexts, List.map_map]
  rfl

/-- Where the own names come first the texts are stored under them. -/
theorem callConfigs_of_ownFirst {listConfigs : List Text} {c : Call} (h : OwnFirst listConfigs c) :
    callConfigs listConfigs c = some (.ofList (namedTexts c)) := by
  obtain ⟨rest, hrest⟩ := h
  have hzip : ((namedTexts c).map Prod.fst ++ rest).zip ((namedTexts c).map Prod.snd ++ []) =
      ((namedTexts c).map Prod.fst).zip ((namedTexts c).map Prod.snd) ++ rest.zip [] :=
    List.zip_append (by simp)
  rw [List.append_nil, List.zip_nil_right, List.append_nil,
    ← (List.zip_of_prod rfl rfl : namedTexts c = _)] at hzip
  rw [callConfigs_eq, ← hrest, hzip]

theorem namesRight_of_ownFirst {listConfigs : List Text} {c : Call} (h : OwnFirst listConfigs c) :
    NamesRight listConfigs c :=
  ⟨_, callConfigs_of_ownFirst h, fun _ he => Dict.mem_of_mem_ofList he⟩

theorem combos_ne_nil (groups : List (Text × Dict Text Text)) : combos groups ≠ [] := by
  refine product_ne_nil fun l hl => ?_
  obtain ⟨g, -, rfl⟩ := List.mem_map.mp hl
  rw [normalized]
  split
  · exact List.cons_ne_nil _ _
  · assumption

theorem namedTexts_ne_nil (c : Call) : namedTexts c ≠ [] := by
  simp [namedTexts, combos_ne_nil]

/-- The names a call leaves whose own names come first, if its colours are
numbers; else it raises. -/
theorem engineStep_eq {numCacheColors : ℕ} {listConfigs : List Text} {c : Call} (h : OwnFirst listConfigs c) :
    engineStep numCacheColors listConfigs c =
      if HexColors (mitigation numCacheColors c) then some (namesLeft numCacheColors c) else none := by
  rw [engineStep, generateTests, callConfigs_of_ownFirst h, Option.bind_some,
    generateInterferenceMitigationConfigurations]
  split
  · next hhex =>
    rw [mitigationEntries_eq hhex, namesLeft, ← map_fst_entries]
    rfl
  · next hhex =>
    rw [mitigationEntries_of_not_hex hhex (Dict.items_ofList_ne_nil (namedTexts_ne_nil c))]
    rfl

/-- In a run that goes on so every text gets the name of its own guests. -/
theorem namesRight_of_continued {numCacheColors : ℕ} : ∀ {calls : List Call} {listConfigs : List Text},
    (∀ c ∈ calls.head?, OwnFirst listConfigs c) → Continued numCacheColors calls →
    ∀ listConfigs' c, Takes (engineStep numCacheColors) listConfigs calls listConfigs' c →
      NamesRight listConfigs' c
  | [], _, _, _, _, _, ⟨pre, hpre, _⟩ => by simp at hpre
  | d :: calls, listConfigs, hfirst, hcont, listConfigs', c, htakes => by
    have hd := hfirst d rfl
    rcases takes_cons.mp htakes with ⟨rfl, rfl⟩ | ⟨u, hu, htakes⟩
    · exact namesRight_of_ownFirst hd
    · rw [engineStep_eq hd] at hu
      split at hu
      · next hhex =>
        obtain rfl := Option.some.inj hu
        refine namesRight_of_continued ?_ ?_ listConfigs' c htakes
        · intro c' hc'
          cases calls with
          | nil => cases hc'
          | cons c'' calls =>
            obtain rfl := Option.some.inj hc'
            exact (hcont hhex).1
        · cases calls with
          | nil => trivial
          | cons c'' calls => exact (hcont hhex).2
      · cases hu

/-- Distinct names and texts are only stored rightly where the own names come
first. -/
theorem ownFirst_of_namesRight {listConfigs : List Text} {c : Call} (hl : listConfigs.Nodup)
    (hnames : ((namedTexts c).map Prod.fst).Nodup) (htexts : ((namedTexts c).map Prod.snd).Nodup)
    (h : NamesRight listConfigs c) : OwnFirst listConfigs c := by
  obtain ⟨d, hd, hright⟩ := h
  rw [callConfigs_eq, Option.some.injEq] at hd
  subst hd
  set own := (namedTexts c).map Prod.fst with hown
  have hlen : own.length = (namedTexts c).length := List.length_map ..
  -- a name that does not come again is stored with the text of its position
  have hlast : ∀ i < own.length, (∀ j < own.length, i < j → (listConfigs ++ own)[j]? ≠ (listConfigs ++ own)[i]?) →
      (listConfigs ++ own)[i]? = own[i]? := by
    intro i hi hno
    have hin : i < (listConfigs ++ own).length := by
      rw [List.length_append]
      omega
    have hit : i < ((namedTexts c).map Prod.snd).length := by rwa [List.length_map, ← hlen]
    have hmem := hright ((listConfigs ++ own)[i], ((namedTexts c).map Prod.snd)[i])
      (Dict.mem_ofList_iff_getElem?.mpr ⟨i, List.getElem?_zip_eq_some.mpr
        ⟨List.getElem?_eq_getElem hin, List.getElem?_eq_getElem hit⟩, fun j x hij hx hk => ?_⟩)
    · obtain ⟨k, hk⟩ := List.mem_iff_getElem?.mp hmem
      have hkt : ((namedTexts c).map Prod.snd)[i]? = ((namedTexts c).map Prod.snd)[k]? := by
        rw [List.getElem?_eq_getElem hit, List.getElem?_map, hk]
        rfl
      obtain rfl := (List.getElem?_inj hit htexts).mp hkt
      have hname : own[i]? = ((namedTexts c)[i]?).map Prod.fst := List.getElem?_map ..
      rw [hname, hk, List.getElem?_eq_getElem hin]
      rfl
    · obtain ⟨hjn, hjt⟩ := List.getElem?_zip_eq_some.mp hx
      have hj : j < own.length := by
        rw [hlen]
        simpa using (List.getElem?_eq_some_iff.mp hjt).1
      refine hno j hj hij ?_
      rw [hjn, List.getElem?_eq_getElem hin]
      exact congrArg some hk
  rcases Nat.lt_or_ge listConfigs.length own.length with hlt | hge
  · rcases Nat.eq_zero_or_pos listConfigs.length with hzero | hpos
    · rw [List.length_eq_zero_iff.mp hzero, OwnFirst, List.nil_append]
    · -- the last position has an earlier own name
      have heq := hlast (own.length - 1) (by omega) fun j hj hij => by omega
      rw [List.getElem?_append_right (by omega)] at heq
      have := (List.getElem?_inj (by omega) hnames).mp heq
      omega
  · have htake : own = (listConfigs ++ own).take own.length := by
      refine List.ext_getElem? fun i => ?_
      rcases Nat.lt_or_ge i own.length with hi | hi
      · rw [List.getElem?_take_of_lt hi, ← hlast i hi fun j hj hij heq => ?_]
        rw [List.getElem?_append_left (by omega), List.getElem?_append_left (by omega)] at heq
        have := (List.getElem?_inj (by omega) hl).mp heq
        omega
      · rw [List.getElem?_eq_none hi, List.getElem?_eq_none]
        rw [List.length_take]
        omega
    rw [OwnFirst, ← hown]
    exact ⟨_, (congrArg (· ++ _) htake).trans (List.take_append_drop own.length (listConfigs ++ own))⟩

/-- Runs of calls with distinct names and texts only store all rightly if they
go on so. -/
theorem continued_of_namesRight {numCacheColors : ℕ} : ∀ {calls : List Call} {listConfigs : List Text},
    (∀ c ∈ calls, Distinct numCacheColors c) → (∀ c ∈ calls.head?, OwnFirst listConfigs c) →
    (∀ listConfigs' c, Takes (engineStep numCacheColors) listConfigs calls listConfigs' c →
      NamesRight listConfigs' c) → Continued numCacheColors calls
  | [], _, _, _, _ => trivial
  | [_], _, _, _, _ => trivial
  | c :: c' :: calls, listConfigs, hdist, hfirst, h => by
    intro hhex
    rw [List.forall_mem_cons] at hdist
    have hc' := hdist.2 c' List.mem_cons_self
    have hstep := @engineStep_eq numCacheColors _ _ (hfirst c rfl)
    rw [if_pos hhex] at hstep
    have hrest : ∀ listConfigs' d, Takes (engineStep numCacheColors) (namesLeft numCacheColors c) (c' :: calls)
        listConfigs' d → NamesRight listConfigs' d :=
      fun listConfigs' d htakes => h listConfigs' d (takes_cons.mpr (.inr ⟨_, hstep, htakes⟩))
    have hown := ownFirst_of_namesRight hdist.1.left hc'.names hc'.texts
      (hrest _ _ (takes_cons.mpr (.inl ⟨rfl, rfl⟩)))
    refine ⟨hown, continued_of_namesRight hdist.2 (fun d hd => ?_) hrest⟩
    obtain rfl := Option.some.inj hd
    exact hown

/-- **Main result.** In every run of calls on one engine in which each call's
own names come first in what the call before leaves, every text is stored
under the name of its own guests; and among calls with distinct names and
texts these are the only such runs. -/
theorem namesRight_run (numCacheColors : ℕ) (calls : List Call) :
    (Continued numCacheColors calls → ∀ listConfigs c,
      Takes (engineStep numCacheColors) [] calls listConfigs c → NamesRight listConfigs c) ∧
    ((∀ c ∈ calls, Distinct numCacheColors c) →
      (∀ listConfigs c, Takes (engineStep numCacheColors) [] calls listConfigs c → NamesRight listConfigs c) →
        Continued numCacheColors calls) := by
  have hfirst : ∀ c ∈ calls.head?, OwnFirst [] c := fun c _ => List.prefix_refl _
  exact ⟨fun h => namesRight_of_continued hfirst h, fun hdist h => continued_of_namesRight hdist hfirst h⟩

/-! ### The files -/

/-- With hexadecimal colours a call always writes files, each with the text
of a combination in one of the variants. -/
theorem generateTests_files (numCacheColors : ℕ) (listConfigs : List Text) {c : Call}
    (hhex : HexColors (mitigation numCacheColors c)) :
    ∃ files names, generateTests numCacheColors listConfigs c = some (files, names) ∧
      files.items ≠ [] ∧ ∀ e ∈ files.items,
        ∃ combo ∈ combos (configGroups c.guests c.includeProfiler),
        ∃ content ∈ colorTexts (mitigation numCacheColors c) (configContent c.includeProfiler
          (comboConfig (enableProfiler (configGroups c.guests c.includeProfiler)) combo)),
        e.2 ∈ mbrTexts (mitigation numCacheColors c) content := by
  have hcall := callConfigs_eq listConfigs c
  generalize hzip : (listConfigs ++ (namedTexts c).map Prod.fst).zip ((namedTexts c).map Prod.snd) =
    stored at hcall
  have hstored : stored ≠ [] := by
    have hne : (namedTexts c).length ≠ 0 := by
      simp [namedTexts, combos_ne_nil]
    intro hnil
    have hlen := congrArg List.length hzip
    rw [hnil, List.length_zip, List.length_append, List.length_map, List.length_map,
      List.length_nil] at hlen
    omega
  set entries := (Dict.ofList stored).items.flatMap (baseEntries (mitigation numCacheColors c))
    with hentries
  have hmit := mitigationEntries_eq hhex (Dict.ofList stored)
  refine ⟨.ofList entries, entries.map Prod.fst, ?_, ?_, fun e he => ?_⟩
  · rw [generateTests, hcall, Option.bind_some, generateInterferenceMitigationConfigurations, hmit]
    rfl
  · refine Dict.items_ofList_ne_nil fun hnil => ?_
    have hlen := length_entries (mitigation numCacheColors c) (Dict.ofList stored)
    rw [← hentries, hnil, List.length_nil, eq_comm, Nat.mul_eq_zero, Nat.mul_eq_zero] at hlen
    have := List.length_pos_iff.mpr (Dict.items_ofList_ne_nil hstored)
    omega
  · have htext : e.2 ∈ entries.map Prod.snd := List.mem_map_of_mem (Dict.mem_of_mem_ofList he)
    rw [map_snd_entries, tripleTexts, List.mem_flatMap] at htext
    obtain ⟨base, hbase, hcontent⟩ := htext
    obtain ⟨content, hmem, hmbr⟩ := List.mem_flatMap.mp hcontent
    have hzipmem := Dict.mem_of_mem_ofList hbase
    rw [← hzip] at hzipmem
    obtain ⟨named, hnamed, hsnd⟩ := List.mem_map.mp (List.of_mem_zip hzipmem).2
    obtain ⟨combo, hcombo, rfl⟩ := List.mem_map.mp hnamed
    exact ⟨combo, hcombo, content, by rw [← hsnd] at hmem; exact hmem, hmbr⟩

/-- A setup with one guest. -/
def oneGuest (guest : Guest) : Call where
  guests := [guest]
  includeProfiler := false
  cacheColors := []
  mbrConfigs := []

def linuxSetup : Call := oneGuest
  ⟨.linux, .ofList [("linux_idle".toList, "VM_IMAGE(linux_image)\n.entry = 0x40000000,".toList)]⟩

def embenchSetup : Call := oneGuest
  ⟨.embench, .ofList [("embench_crc".toList, "VM_IMAGE(baremetal_image)\n.entry = 0x0,".toList)]⟩

/-- The Linux guest with a second configuration. -/
def twoLinuxSetup : Call := oneGuest
  ⟨.linux, .ofList [("linux_idle".toList, "VM_IMAGE(linux_image)\n.entry = 0x80000000,".toList),
    ("linux_load".toList, "VM_IMAGE(linux_image)\n.entry = 0x40000000,".toList)]⟩

/-- Fewer of the same names again. -/
theorem namesRight_run_fewer :
    (∀ listConfigs c, Takes (engineStep 8) [] [twoLinuxSetup, linuxSetup] listConfigs c →
      NamesRight listConfigs c) ∧ Continued 8 [twoLinuxSetup, linuxSetup] := by
  have hcont : Continued 8 [twoLinuxSetup, linuxSetup] := fun _ => ⟨by unfold OwnFirst; decide +kernel, trivial⟩
  have hright := (namesRight_run 8 [twoLinuxSetup, linuxSetup]).1 hcont
  refine ⟨hright, (namesRight_run 8 [twoLinuxSetup, linuxSetup]).2 (fun c hc => ?_) hright⟩
  have hnames : ∀ c ∈ [twoLinuxSetup, linuxSetup], ((namedTexts c).map Prod.fst).Nodup := by decide +kernel
  have htexts : ∀ c ∈ [twoLinuxSetup, linuxSetup], ((namedTexts c).map Prod.snd).Nodup := by decide +kernel
  have hleft : ∀ c ∈ [twoLinuxSetup, linuxSetup], (namesLeft 8 c).Nodup := by decide +kernel
  exact ⟨hnames c hc, htexts c hc, hleft c hc⟩

/-- After the Linux setup the text of the baremetal guest is stored under the
Linux name. -/
theorem embenchSetup_wrong :
    Takes (engineStep 8) [] [linuxSetup, embenchSetup] ["linux_idle".toList] embenchSetup ∧
    ¬ NamesRight ["linux_idle".toList] embenchSetup := by
  refine ⟨⟨[linuxSetup], List.prefix_refl _, by decide +kernel⟩, ?_⟩
  rintro ⟨d, hd, h⟩
  have hcall : callConfigs ["linux_idle".toList] embenchSetup =
      some (.ofList [("linux_idle".toList, ((namedTexts embenchSetup).map Prod.snd).headD [])]) := by
    decide +kernel
  rw [hcall, Option.some.injEq] at hd
  subst hd
  exact absurd (h _ (List.mem_singleton_self _)) (by decide +kernel)

end TestEngine
end DaatMcs
