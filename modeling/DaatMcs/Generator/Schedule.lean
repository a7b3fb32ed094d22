/-
# From the setups to the test list

`main` generates and builds the configurations of one setup after the other.
Then it makes the test list: for every setup, an image for each name in the
engine's `list_configs`, with the serial ports of the setup. By then
`list_configs` is the last setup's, so the images of the others are those of
the last one again; and what stands before the benchmark in a name is cut off
the image's name. `covered_iff` is exactly when the list still has every
configuration of every setup once, under the name its image was built with.
-/
import DaatMcs.Generator.Isolation
import DaatMcs.Lib.Labels
import DaatMcs.Lib.UpTo

namespace DaatMcs
namespace Profiler

open Regex TestEngine

/-- An entry of `setups_configs`. -/
structure SetupConfig where
  setup : Setup
  logPorts : List Text

/-- What `main` reads from the configuration file, and the configurations its
guest objects generate. -/
structure Config where
  benchmark : Text
  listSetups : List Text
  setupsConfigs : List SetupConfig
  guestConfigs : GuestKind → Dict Text Text

/-- The first entry of a setup. -/
def Config.setupConfig (m : Config) (setup : Text) : Option SetupConfig :=
  m.setupsConfigs.find? fun cfg => cfg.setup.name = setup

def Config.run (m : Config) : Run where
  setups := m.listSetups.filterMap fun setup => (m.setupConfig setup).map SetupConfig.setup
  guestConfigs := m.guestConfigs

/-! ### The generation loop -/

/-- The loop after some setups: the files written for each of them, and the
engine's `list_configs`. -/
structure Generated where
  written : List (Text × Dict Text Text)
  listConfigs : List Text

/-- One setup; none is an exception: it has no entry, its cache cannot be
partitioned, or `generate_tests` raises. -/
def generateSetup (m : Config) (g : Generated) (setup : Text) : Option Generated := do
  let setupCfg ← m.setupConfig setup
  let call ← setupCall m.run setupCfg.setup
  let (files, listConfigs) ← generateTests numCacheColors g.listConfigs call
  return ⟨g.written ++ [(setup, files)], listConfigs⟩

def generateAll (m : Config) : Option Generated := m.listSetups.foldlM (generateSetup m) ⟨[], []⟩

/-! ### The test list -/

/-- The characters of a line that stand for themselves in a pattern, and the dot. -/
def isPlain (c : Char) : Bool := c ∉ "\n^$*+?\x7b[\\|()".toList

/-- `re.sub(r".*?" + benchmark, benchmark, cfg)`. What it does with a benchmark
of other characters, `re.error` included, is a parameter: a `++` in a pattern,
say, is read since Python 3.11 only. -/
def cutBefore (special : Text → Text → Option Text) (benchmark cfg : Text) : Option Text :=
  if benchmark.all isPlain then some ((upTo benchmark).sub benchmark cfg) else special benchmark cfg

def imageName (special : Text → Text → Option Text) (benchmark cfg : Text) : Option Text :=
  (cutBefore special benchmark cfg).map fun setupName => setupName ++ ".img".toList

def listBaoImgs (special : Text → Text → Option Text) (m : Config) (listConfigs : List Text) :
    Option (List Text) :=
  (m.listSetups.flatMap fun _ => listConfigs).mapM (imageName special m.benchmark)

/-- The ports of the first entry, once for each configuration. -/
def listLogPorts (m : Config) (listConfigs : List Text) : List (List Text) :=
  m.listSetups.flatMap fun setup =>
    listConfigs.flatMap fun _ => ((m.setupConfig setup).map SetupConfig.logPorts).toList

/-! ### What the list is to have -/

/-- The image `build_tests` has built for a configuration. -/
def builtImage (configName : Text) : Text := configName ++ ".img".toList

def logPortsOf (m : Config) (setup : Text) : List Text :=
  ((m.setupConfig setup).map SetupConfig.logPorts).getD []

/-- Each setup's configurations, as they were built, with the setup's ports. -/
def expected (m : Config) (g : Generated) : List (Text × List Text) :=
  g.written.flatMap fun w => w.2.keys.map fun name => (builtImage name, logPortsOf m w.1)

/-- The test list made after the generation has what it is to have, in some order. -/
def Covers (special : Text → Text → Option Text) (m : Config) (g : Generated) : Prop :=
  ∃ imgs, listBaoImgs special m g.listConfigs = some imgs ∧
    (imgs.zip (listLogPorts m g.listConfigs)).Perm (expected m g)

/-- Whenever `main` gets to its test list, the list has what it is to have. -/
def Covered (special : Text → Text → Option Text) (m : Config) : Prop :=
  ∀ g, generateAll m = some g → Covers special m g

/-! ### When it has -/

/-- A name with nothing before the benchmark: on each line its copies come
first, and nothing behind them fits it, a dot for any character. Of an empty
benchmark, `.*?` takes whole lines. -/
def Kept (benchmark cfg : Text) : Prop :=
  if benchmark = [] then ∀ c ∈ cfg, c = '\n' else ∀ line ∈ cfg.splitOn '\n', LeadingCopies benchmark line

/-- The names are kept; for a benchmark of other characters they may also be
exchanged for each other. -/
def NamesKept (special : Text → Text → Option Text) (benchmark : Text) (names : List Text) : Prop :=
  if benchmark.all isPlain then ∀ cfg ∈ names, Kept benchmark cfg
  else ∃ kept, names.mapM (special benchmark) = some kept ∧ kept.Perm names

/-- All setups were left with the names of the last one, each there once, and
these are kept. -/
structure Schedulable (special : Text → Text → Option Text) (m : Config) (g : Generated) : Prop where
  same : ∀ w ∈ g.written, w.2.keys.Perm g.listConfigs
  kept : NamesKept special m.benchmark g.listConfigs

/-! ### The generation loop, setup by setup -/

/-- The files are stored under the names left in `list_configs`. -/
theorem generateTests_keys {n : ℕ} {listConfigs names : List Text} {c : Call} {files : Dict Text Text}
    (h : generateTests n listConfigs c = some (files, names)) (name : Text) :
    name ∈ files.keys ↔ name ∈ names := by
  obtain ⟨d, -, h⟩ := Option.bind_eq_some_iff.mp h
  obtain ⟨entries, -, h⟩ := Option.map_eq_some_iff.mp h
  rw [Prod.mk.injEq] at h
  rw [← h.1, ← h.2]
  exact Dict.mem_keys_ofList

/-- The loop after these setups. -/
structure WrittenFor (m : Config) (setups : List Text) (g : Generated) : Prop where
  setups_eq : g.written.map Prod.fst = setups
  found : ∀ w ∈ g.written, ∃ cfg, m.setupConfig w.1 = some cfg
  last : ∀ w ∈ g.written.getLast?, ∀ name, name ∈ w.2.keys ↔ name ∈ g.listConfigs
  start : g.written = [] → g.listConfigs = []

theorem WrittenFor.step {m : Config} {setups : List Text} {g g' : Generated} {setup : Text}
    (h : WrittenFor m setups g) (hstep : generateSetup m g setup = some g') :
    WrittenFor m (setups ++ [setup]) g' := by
  obtain ⟨cfg, hcfg, hstep⟩ := Option.bind_eq_some_iff.mp hstep
  obtain ⟨call, -, hstep⟩ := Option.bind_eq_some_iff.mp hstep
  obtain ⟨⟨files, names⟩, hgen, hstep⟩ := Option.bind_eq_some_iff.mp hstep
  obtain rfl := Option.some.inj hstep
  refine ⟨?_, ?_, ?_, fun hnil => ?_⟩
  · rw [List.map_append, h.setups_eq]
    rfl
  · exact List.forall_mem_append.mpr ⟨h.found, fun w hw => ⟨cfg, by rw [List.mem_singleton.mp hw]; exact hcfg⟩⟩
  · intro w hw
    rw [List.getLast?_concat, Option.mem_some_iff] at hw
    rw [← hw]
    exact generateTests_keys hgen
  · exact absurd hnil (by simp)

theorem writtenFor_foldlM {m : Config} {setups : List Text} {g : Generated}
    (h : setups.foldlM (generateSetup m) ⟨[], []⟩ = some g) : WrittenFor m setups g := by
  induction setups using List.reverseRecOn generalizing g with
  | nil =>
    obtain rfl := Option.some.inj h
    exact ⟨rfl, fun w hw => (by cases hw), fun w hw => (by cases hw), fun _ => rfl⟩
  | append_singleton setups setup ih =>
    obtain ⟨g', hg', hstep⟩ := Steps.foldlM_concat.mp h
    exact (ih hg').step hstep

/-! ### The test list, setup by setup -/

section
variable {special : Text → Text → Option Text} {m : Config} {names kept : List Text}

theorem builtImage_injective : Function.Injective builtImage := fun _ _ h => List.append_cancel_right h

theorem mapM_imageName : ∀ names : List Text, names.mapM (imageName special m.benchmark) =
    (names.mapM (cutBefore special m.benchmark)).map (List.map builtImage)
  | [] => rfl
  | cfg :: names => by
    rw [List.mapM_cons, List.mapM_cons, mapM_imageName names, imageName]
    cases cutBefore special m.benchmark cfg with
    | none => rfl
    | some setupName => cases names.mapM (cutBefore special m.benchmark) <;> rfl

theorem listBaoImgs_eq (h : names.mapM (cutBefore special m.benchmark) = some kept) :
    listBaoImgs special m names = some (m.listSetups.flatMap fun _ => kept.map builtImage) := by
  rw [listBaoImgs]
  generalize m.listSetups = setups
  induction setups with
  | nil => rfl
  | cons setup setups ih =>
    rw [List.flatMap_cons, List.mapM_append, mapM_imageName, h, ih]
    rfl

/-- If the list has its images, every name has one. -/
theorem exists_kept {g : Generated} (hg : WrittenFor m m.listSetups g) {imgs : List Text}
    (h : listBaoImgs special m g.listConfigs = some imgs) :
    ∃ kept, g.listConfigs.mapM (cutBefore special m.benchmark) = some kept := by
  match hsetups : m.listSetups with
  | [] =>
    have hnil := hg.setups_eq
    rw [hsetups, List.map_eq_nil_iff] at hnil
    rw [hg.start hnil]
    exact ⟨[], rfl⟩
  | setup :: setups =>
    rw [listBaoImgs, hsetups, List.flatMap_cons, List.mapM_append, mapM_imageName] at h
    obtain ⟨imgs', himgs', -⟩ := Option.bind_eq_some_iff.mp h
    obtain ⟨kept, hkept, -⟩ := Option.map_eq_some_iff.mp himgs'
    exact ⟨kept, hkept⟩

/-- Image and ports of each test: the list is made setup by setup. -/
theorem zip_eq_labelled (hlen : kept.length = names.length) : ∀ {setups : List Text},
    (∀ setup ∈ setups, ∃ cfg, m.setupConfig setup = some cfg) →
    (setups.flatMap fun _ => kept.map builtImage).zip (setups.flatMap fun setup =>
        names.flatMap fun _ => ((m.setupConfig setup).map SetupConfig.logPorts).toList) =
      labelled (setups.map fun setup => (logPortsOf m setup, kept.map builtImage))
  | [], _ => rfl
  | setup :: setups, h => by
    obtain ⟨⟨cfg, hcfg⟩, hsetups⟩ := List.forall_mem_cons.mp h
    have hports : (names.flatMap fun _ => ((m.setupConfig setup).map SetupConfig.logPorts).toList) =
        kept.map fun _ => logPortsOf m setup := by
      rw [logPortsOf, hcfg, List.map_const', hlen]
      show (names.flatMap fun _ => [cfg.logPorts]) = _
      rw [← List.map_eq_flatMap, List.map_const']
      rfl
    rw [List.flatMap_cons, List.flatMap_cons, hports, List.zip_append (by simp), List.zip_map',
      zip_eq_labelled hlen hsetups, List.map_cons, labelled_cons, List.map_map]
    rfl

/-- With the names cut to `kept`, the list is right iff every setup has just
these names. -/
theorem covers_iff_kept {g : Generated} (hg : WrittenFor m m.listSetups g)
    (h : g.listConfigs.mapM (cutBefore special m.benchmark) = some kept) :
    Covers special m g ↔ ∀ w ∈ g.written, w.2.keys.Perm kept := by
  have hfound : ∀ setup ∈ m.listSetups, ∃ cfg, m.setupConfig setup = some cfg := by
    rw [← hg.setups_eq]
    exact fun setup hsetup => by
      obtain ⟨w, hw, rfl⟩ := List.mem_map.mp hsetup
      exact hg.found w hw
  have hlen : kept.length = g.listConfigs.length := (List.Forall₂.length_eq (mapM_eq_some_iff.mp h)).symm
  let entries := g.written.map fun w => (logPortsOf m w.1, w.2.keys.map builtImage)
  have hlist : m.listSetups.map (fun setup => (logPortsOf m setup, kept.map builtImage)) =
      entries.map fun e => (e.1, kept.map builtImage) := by
    rw [List.map_map, ← hg.setups_eq, List.map_map]
    rfl
  have hexpected : expected m g = labelled entries := by
    rw [expected, labelled, List.flatMap_map]
    simp only [List.map_map]
    rfl
  have hnd : ∀ e ∈ entries, e.2.Nodup := fun e he => by
    obtain ⟨w, -, rfl⟩ := List.mem_map.mp he
    exact w.2.nodup.map builtImage_injective
  rw [Covers, listBaoImgs_eq h]
  simp only [Option.some.injEq, exists_eq_left']
  rw [listLogPorts, zip_eq_labelled hlen hfound, hlist, hexpected, labelled_perm_iff hnd]
  simp only [entries, List.forall_mem_map, List.map_perm_map_iff builtImage_injective]

/-- The last setup has the names of `list_configs`. -/
theorem keys_perm_of_last {g : Generated} (hg : WrittenFor m m.listSetups g)
    (hlen : kept.length = g.listConfigs.length) (hkeys : ∀ w ∈ g.written, w.2.keys.Perm kept) :
    kept.Perm g.listConfigs := by
  match hlast : g.written.getLast? with
  | none =>
    rw [List.getLast?_eq_none_iff] at hlast
    have hnil := hg.start hlast
    rw [hnil, List.length_nil, List.length_eq_zero_iff] at hlen
    rw [hnil, hlen]
  | some w =>
    have hperm := hkeys w (List.mem_of_getLast? hlast)
    have hsub : w.2.keys ⊆ g.listConfigs := fun name hname => (hg.last w hlast name).mp hname
    have hsubperm : w.2.keys.Subperm g.listConfigs := List.subperm_of_subset w.2.nodup hsub
    exact hperm.symm.trans (hsubperm.perm_of_length_le (by rw [hperm.length_eq, hlen]))

end

/-- The two ways to have the names kept. -/
theorem namesKept_iff {special : Text → Text → Option Text} {benchmark : Text} {names : List Text} :
    NamesKept special benchmark names ↔
      ∃ kept, names.mapM (cutBefore special benchmark) = some kept ∧ kept.Perm names := by
  unfold NamesKept
  by_cases hplain : benchmark.all isPlain
  · have hcut : names.mapM (cutBefore special benchmark) = some (names.map ((upTo benchmark).sub benchmark)) :=
      mapM_eq_some fun cfg _ => by rw [cutBefore, if_pos hplain]
    rw [if_pos hplain, hcut]
    simp only [Option.some.injEq, exists_eq_left']
    rw [map_sub_upTo_perm_iff]
    refine forall₂_congr fun cfg _ => ?_
    rw [Kept]
    split
    · next hnil =>
      rw [hnil, sub_upTo_nil, List.filter_eq_self]
      simp only [decide_eq_true_eq]
    · next hne =>
      refine (sub_upTo_eq_self_iff hne (fun hmem => ?_) cfg).symm
      exact absurd (List.all_eq_true.mp hplain _ hmem) (by decide)
  · have hcut : cutBefore special benchmark = special benchmark :=
      funext fun cfg => by rw [cutBefore, if_neg hplain]
    rw [if_neg hplain, hcut]

/-- **Main result.** The test list has every configuration of every setup once,
with the setup's ports and the name of the image built, iff all setups are left
with the same names, each there once, and nothing is cut off these. -/
theorem covered_iff (special : Text → Text → Option Text) (m : Config) :
    Covered special m ↔ ∀ g, generateAll m = some g → Schedulable special m g := by
  refine forall₂_congr fun g hg => ?_
  replace hg := writtenFor_foldlM hg
  constructor
  · intro h
    have ⟨imgs, himgs, _⟩ := h
    obtain ⟨kept, hcut⟩ := exists_kept hg himgs
    have hkeys := (covers_iff_kept hg hcut).mp h
    have hlen : kept.length = g.listConfigs.length := (List.Forall₂.length_eq (mapM_eq_some_iff.mp hcut)).symm
    have hperm := keys_perm_of_last hg hlen hkeys
    exact ⟨fun w hw => (hkeys w hw).trans hperm, namesKept_iff.mpr ⟨kept, hcut, hperm⟩⟩
  · rintro ⟨hsame, hkept⟩
    obtain ⟨kept, hcut, hperm⟩ := namesKept_iff.mp hkept
    exact (covers_iff_kept hg hcut).mpr fun w hw => (hsame w hw).trans hperm.symm

/-- A list without an image that was built is not right. -/
theorem not_covered {special : Text → Text → Option Text} {m : Config} {keys listConfigs imgs : List Text}
    {rest : List (List Text)} {name : Text}
    (hgen : (generateAll m).map (fun g => (g.written.map fun w => w.2.keys, g.listConfigs)) =
      some ((name :: keys) :: rest, listConfigs))
    (himgs : listBaoImgs special m listConfigs = some imgs) (hnot : builtImage name ∉ imgs) :
    ¬ Covered special m := by
  intro h
  obtain ⟨g, hg, heq⟩ := Option.map_eq_some_iff.mp hgen
  obtain ⟨hwritten, rfl⟩ := Prod.mk.inj heq
  obtain ⟨imgs', himgs', hperm⟩ := h g hg
  obtain rfl := Option.some.inj (himgs.symm.trans himgs')
  have hkeys : name :: keys ∈ g.written.map fun w => w.2.keys := hwritten ▸ List.mem_cons_self
  obtain ⟨w, hw, hw'⟩ := List.mem_map.mp hkeys
  have hmem : (builtImage name, logPortsOf m w.1) ∈ expected m g :=
    List.mem_flatMap.mpr ⟨w, hw, List.mem_map.mpr ⟨name, hw' ▸ List.mem_cons_self, rfl⟩⟩
  exact hnot (List.of_mem_zip (hperm.symm.subset hmem)).1

/-- A run with a Linux guest, and the same guest with a coloured cache. -/
def mibench (benchmark : Text) (listSetups : List Text) : Config where
  benchmark := benchmark
  listSetups := listSetups
  setupsConfigs :=
    [⟨⟨"solo_linux".toList, [.linux], false, [], []⟩, ["/dev/ttyUSB0".toList]⟩,
      ⟨⟨"solo_linux_cc".toList, [.linux], true, [["0x0f".toList]], []⟩, ["/dev/ttyUSB0".toList]⟩]
  guestConfigs
    | .linux => .ofList [("linux_susanc_small".toList, "VM_IMAGE(linux_image)\n.entry = 0x40000000,".toList)]
    | _ => .empty

/-- Of two setups the first one is not tested, and of a benchmark in the
middle of the name the image is not the one built. -/
theorem mibench_not_covered :
    ¬ Covered (fun _ _ => none) (mibench "mibench".toList ["solo_linux".toList, "solo_linux_cc".toList]) ∧
    ¬ Covered (fun _ _ => none) (mibench "susanc".toList ["solo_linux".toList]) := by
  constructor
  · have hgen : (generateAll (mibench "mibench".toList ["solo_linux".toList, "solo_linux_cc".toList])).map
        (fun g => (g.written.map fun w => w.2.keys, g.listConfigs)) =
        some ([["linux_susanc_small".toList], ["linux_susanc_small_cc_4-8".toList]],
          ["linux_susanc_small_cc_4-8".toList]) := by
      decide +kernel
    have hlist : listBaoImgs (fun _ _ => none)
        (mibench "mibench".toList ["solo_linux".toList, "solo_linux_cc".toList])
        ["linux_susanc_small_cc_4-8".toList] =
        some (List.replicate 2 "linux_susanc_small_cc_4-8.img".toList) := by
      decide +kernel
    exact not_covered hgen hlist (by decide +kernel)
  · have hgen : (generateAll (mibench "susanc".toList ["solo_linux".toList])).map
        (fun g => (g.written.map fun w => w.2.keys, g.listConfigs)) =
        some ([["linux_susanc_small".toList]], ["linux_susanc_small".toList]) := by
      decide +kernel
    have hlist : listBaoImgs (fun _ _ => none) (mibench "susanc".toList ["solo_linux".toList])
        ["linux_susanc_small".toList] = some ["susanc_small.img".toList] := by
      decide +kernel
    exact not_covered hgen hlist (by decide +kernel)

end Profiler
end DaatMcs
