/-
# The names of guest images

A VM configuration refers to its guest's image by a name that
`generate_guest_config_files` composes; `build_guests` composes the name of
the binary a second time, with code of its own. For cache guests the letter
of the last word found in the operation stands against the letters of all of
them; for Embench guests the last component of the source directory and the
CPUs of the first list against a fixed name and the number of lists. `names_iff`
is exactly when the two names are the same for all entries.
-/
import DaatMcs.Generator.Guests

namespace DaatMcs
namespace Guests

/-- The configurations for which both compositions mean the same: in every
operation exactly one of the words, and an Embench source directory of the
usual name with as many CPU lists as there are CPUs in the first. -/
def NamedAlike : Guests → Prop
  | cache g => ∀ entry ∈ g.getConfigurations,
      operationWords.countP (hasWord entry.readWriteOperation) = 1
  | embench g => g.benchmarks ≠ [] → lastComponent g.srcDir = "baremetal_embench".toList ∧
      ∀ cpuIDs ∈ g.cpuIDs[0]?, g.cpuIDs.length = cpuIDs.length
  | cci _ | linux _ => True

/-! ### Cache guests -/

/-- Overwriting keeps the last letter of those that are collected. -/
theorem foldl_overwrite (p : Text × Char → Bool) (words : List (Text × Char)) (rw : Option Char) :
    words.foldl (fun rw word => if p word then some word.2 else rw) rw =
      ((words.filter p).map Prod.snd).getLast?.or rw := by
  induction words using List.reverseRecOn with
  | nil => rfl
  | append_singleton words word ih =>
    rw [List.foldl_append, ih, List.filter_append, List.foldl_cons, List.foldl_nil]
    by_cases hp : p word = true
    · simp [hp]
    · simp [hp]

theorem operationLetters_iff {rwOperation : Option Char} {operation : Text} {c : Char}
    (h : lastOperation rwOperation operation = some c) :
    operationLetters operation = [c] ↔ operationWords.countP (hasWord operation) = 1 := by
  rw [lastOperation, foldl_overwrite, ← operationLetters] at h
  have hlen : (operationLetters operation).length = operationWords.countP (hasWord operation) := by
    rw [operationLetters, List.length_map, List.countP_eq_length_filter]
  rw [← hlen]
  refine ⟨fun heq => by rw [heq]; rfl, fun hone => ?_⟩
  obtain ⟨d, hd⟩ := List.length_eq_one_iff.mp hone
  rw [hd, List.getLast?_singleton, Option.some_or] at h
  rw [hd, Option.some.inj h]

theorem cacheName_inj {rw rw' ibs : Text} {n : ℕ} :
    cacheName rw n ibs = cacheName rw' n ibs ↔ rw = rw' := by
  unfold cacheName
  simp only [List.append_assoc, List.append_cancel_left_eq, List.append_cancel_right_eq]

theorem cacheVms_names : ∀ {rwOperation : Option Char} {gs : List CacheGuest}
    {vms : List Vm}, (∀ g ∈ gs, g.cpuIDs.length = g.numCpus) → cacheVms rwOperation gs = some vms →
    ((gs.map fun g => cacheName (operationLetters g.readWriteOperation) g.numCpus
        g.interferenceBufferSize) = vms.map Vm.configName ↔
      ∀ g ∈ gs, operationWords.countP (hasWord g.readWriteOperation) = 1)
  | _, [], vms, _, h => by
    rw [cacheVms, Option.some.injEq] at h
    rw [← h]
    simp
  | rwOperation, g :: gs, vms, hnum, h => by
    rw [cacheVms] at h
    obtain ⟨c, hc, h⟩ := Option.bind_eq_some_iff.mp h
    obtain ⟨vms', hvms', rfl⟩ := Option.map_eq_some_iff.mp h
    have ih := cacheVms_names (fun g hg => hnum g (List.mem_cons_of_mem _ hg)) hvms'
    rw [List.map_cons, List.map_cons, List.cons.injEq, ih, List.forall_mem_cons, CacheGuest.vm,
      hnum g List.mem_cons_self, cacheName_inj, operationLetters_iff hc]

/-- Every entry has the number of the CPUs it has. -/
theorem length_cpuIDs {g : BaremetalCacheGuests} : ∀ entry ∈ g.getConfigurations,
    entry.cpuIDs.length = entry.numCpus := by
  intro entry hentry
  obtain ⟨ibs, -, hentry⟩ := List.mem_flatMap.mp hentry
  obtain ⟨cpus, hcpus, hentry⟩ := List.mem_flatMap.mp hentry
  obtain ⟨rw', -, rfl⟩ := List.mem_map.mp hentry
  have hget : g.numCpus[g.numCpus.idxOf cpus]? = some cpus := List.getElem?_idxOf hcpus
  rw [BaremetalGuests.numCpus, List.getElem?_map, ← BaremetalGuests.numCpus] at hget
  obtain ⟨cpuIDs, hids, hlen⟩ := Option.map_eq_some_iff.mp hget
  show (g.cpuIDs.getD (g.numCpus.idxOf cpus) []).length = cpus
  rw [List.getD_eq_getElem?_getD, hids, Option.getD_some, hlen]

/-! ### Embench guests -/

theorem embenchName_inj {p p' benchmark : Text} {n n' : ℕ} :
    embenchName p benchmark n = embenchName p' benchmark n' ↔ p = p' ∧ n = n' := by
  refine ⟨fun h => ?_, fun ⟨hp, hn⟩ => by rw [hp, hn]⟩
  have hmid : p ++ '_' :: (benchmark ++ "-C".toList) ++ showNat n =
      p' ++ '_' :: (benchmark ++ "-C".toList) ++ showNat n' := by
    have hsep : "_".toList = ['_'] := rfl
    unfold embenchName at h
    rw [hsep] at h
    simpa only [List.append_assoc, List.cons_append, List.nil_append] using h
  obtain ⟨hp, hn⟩ := append_inj_middle (notMem_showNat (by decide) n) (notMem_showNat (by decide) n')
    hmid
  exact ⟨hp, showNat_injective hn⟩

theorem embench_names {g : BaremetalEmbenchGuests} {entries : List EmbenchGuest}
    (h : g.getConfigurations = some entries) :
    (entries.map EmbenchGuest.build).map Build.bareName =
        (entries.map EmbenchGuest.vm).map Vm.configName ↔ NamedAlike (.embench g) := by
  have hentry : ∀ entry ∈ entries, ∃ cpuIDs, g.cpuIDs[0]? = some cpuIDs ∧ entry.srcDir = g.srcDir ∧
      entry.numCpus = g.cpuIDs.length ∧ entry.cpuIDs = cpuIDs := by
    intro entry hmem
    obtain ⟨benchmark, -, hentry⟩ := exists_of_mem_mapM h hmem
    obtain ⟨cpuIDs, hcpuIDs, rfl⟩ := Option.map_eq_some_iff.mp hentry
    exact ⟨cpuIDs, hcpuIDs, rfl, rfl, rfl⟩
  have hsame : ∀ entry ∈ entries, entry.build.bareName = entry.vm.configName ↔
      lastComponent g.srcDir = "baremetal_embench".toList ∧
        ∀ cpuIDs ∈ g.cpuIDs[0]?, g.cpuIDs.length = cpuIDs.length := by
    intro entry hmem
    obtain ⟨cpuIDs, hcpuIDs, hsrc, hnum, hids⟩ := hentry entry hmem
    rw [EmbenchGuest.build, EmbenchGuest.vm, embenchName_inj, hsrc, hnum, hids, hcpuIDs, eq_comm]
    simp
  have hnil : entries = [] ↔ g.benchmarks = [] := by
    have hlen := (mapM_eq_some_iff.mp h).length_eq
    rw [← List.length_eq_zero_iff, ← List.length_eq_zero_iff, hlen]
  rw [List.map_map, List.map_map, List.map_inj_left, NamedAlike]
  constructor
  · intro hall hne
    obtain ⟨entry, hmem⟩ := List.exists_mem_of_ne_nil entries (mt hnil.mp hne)
    exact (hsame entry hmem).mp (hall entry hmem)
  · intro hcond entry hmem
    exact (hsame entry hmem).mpr (hcond fun hnone => List.ne_nil_of_mem hmem (hnil.mpr hnone))

/-! ### All classes -/

/-- **Main result.** The binaries built for the entries of a guest object have
the names its VM configurations refer to iff the object is `NamedAlike`. -/
theorem names_iff {u : UnicodeData} {g : Guests} {vms : List Vm} {builds : List Build}
    (hvms : g.vms = some vms) (hbuilds : g.buildGuests u = some builds) :
    builds.map Build.bareName = vms.map Vm.configName ↔ NamedAlike g := by
  cases g with
  | cache g =>
    have hnames : builds.map Build.bareName = g.getConfigurations.map fun entry =>
        cacheName (operationLetters entry.readWriteOperation) entry.numCpus
          entry.interferenceBufferSize := by
      refine map_eq_of_mapM hbuilds fun entry build h => ?_
      obtain ⟨bytes, -, rfl⟩ := Option.map_eq_some_iff.mp h
      rfl
    rw [hnames]
    exact cacheVms_names length_cpuIDs hvms
  | embench g =>
    obtain ⟨entries, hentries, rfl⟩ := Option.map_eq_some_iff.mp hvms
    obtain ⟨entries', hentries', rfl⟩ := Option.map_eq_some_iff.mp hbuilds
    obtain rfl : entries = entries' := Option.some.inj (hentries.symm.trans hentries')
    exact embench_names hentries
  | cci g =>
    obtain ⟨entries, hentries, rfl⟩ := Option.map_eq_some_iff.mp hvms
    obtain ⟨entries', hentries', rfl⟩ := Option.map_eq_some_iff.mp hbuilds
    obtain rfl : entries = entries' := Option.some.inj (hentries.symm.trans hentries')
    rw [List.map_map, List.map_map]
    exact ⟨fun _ => trivial, fun _ => rfl⟩
  | linux g =>
    obtain ⟨entries, hentries, hvms⟩ := Option.bind_eq_some_iff.mp hvms
    obtain ⟨entries', hentries', hbuilds⟩ := Option.bind_eq_some_iff.mp hbuilds
    obtain rfl : entries = entries' := Option.some.inj (hentries.symm.trans hentries')
    have hvm : vms.map Vm.configName = entries.map fun entry => linuxName (entry.workloadName.getD []) :=
      map_eq_of_mapM hvms fun entry vm h => by
        obtain ⟨name, hname, h⟩ := Option.bind_eq_some_iff.mp h
        obtain ⟨cpu, -, rfl⟩ := Option.map_eq_some_iff.mp h
        rw [hname, Option.getD_some]
    have hbuild : builds.map Build.bareName =
        entries.map fun entry => linuxName (entry.workloadName.getD []) :=
      map_eq_of_mapM hbuilds fun entry build h => by
        obtain ⟨name, hname, rfl⟩ := Option.map_eq_some_iff.mp h
        rw [hname, Option.getD_some]
    rw [hvm, hbuild]
    exact ⟨fun _ => trivial, fun _ => rfl⟩

theorem names_iff_threeCpuCache : [("baremetal_cache_w-C3-W1M".toList)] = [threeCpuVm.configName] ↔
    NamedAlike threeCpuCache := by
  have hvms : threeCpuCache.vms = some [threeCpuVm] := by decide +kernel
  obtain ⟨builds, hbuilds, hnames⟩ : ∃ builds, threeCpuCache.buildGuests asciiData = some builds ∧
      builds.map Build.bareName = ["baremetal_cache_w-C3-W1M".toList] := by
    refine ⟨_, rfl, ?_⟩
    decide +kernel
  have h := names_iff hvms hbuilds
  rwa [hnames] at h

/-- A cache guest that reads and writes. -/
def readWriteCache : Guests := .cache
  { srcDir := "../guests/baremetal/baremetal_cache".toList
    cpuIDs := [[1, 2, 3]]
    cacheLineSize := 64
    interferenceBufferSize := ["1M".toList]
    readWriteOperation := ["read_write".toList] }

/-- An Embench guest with one list of two CPUs. -/
def twoCpuEmbench : Guests := .embench
  { srcDir := "../guests/baremetal_embench".toList
    cpuIDs := [[1, 2]]
    benchmarks := ["crc32".toList] }

/-- The operation's two letters are in the binary's name, the last one only in
the VM's; and one CPU list stands against two CPUs. -/
theorem images_missing :
    (∃ vms builds, readWriteCache.vms = some vms ∧ readWriteCache.buildGuests asciiData = some builds ∧
      vms.map Vm.configName = ["baremetal_cache_w-C3-W1M".toList] ∧
      builds.map Build.bareName = ["baremetal_cache_rw-C3-W1M".toList] ∧
      builds.map Build.bareName ≠ vms.map Vm.configName) ∧
    ∃ vms builds, twoCpuEmbench.vms = some vms ∧ twoCpuEmbench.buildGuests asciiData = some builds ∧
      vms.map Vm.configName = ["baremetal_embench_crc32-C2".toList] ∧
      builds.map Build.bareName = ["baremetal_embench_crc32-C1".toList] ∧
      builds.map Build.bareName ≠ vms.map Vm.configName := by
  refine ⟨⟨_, _, rfl, rfl, ?_⟩, ⟨_, _, rfl, rfl, ?_⟩⟩
  · decide +kernel
  · decide +kernel

end Guests
end DaatMcs
