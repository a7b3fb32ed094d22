/-
# Guest virtual machines

The guest classes of the generator. Each makes a list of guest entries of its
configuration (`getConfigurations`), builds a binary for every entry
(`buildGuests`) and fills in a template of the VM configuration for every
entry (`generateGuestConfigFiles`); a `Vm` is what it fills in.

The affinity mask of a VM has the bits of its CPUs, and its number of CPUs is
theirs, in every class but that of the Linux guests, which gives the first
CPU's number for the mask (`affinity_iff`).
-/
import DaatMcs.Lib.Dict
import DaatMcs.Lib.Hex
import DaatMcs.Lib.Literal
import DaatMcs.Lib.Regex
import DaatMcs.Lib.Runs
import DaatMcs.Lib.Traverse
import DaatMcs.Lib.Unicode

namespace DaatMcs
namespace Guests

open Literal Regex

/-- What a class fills into its template for one guest entry. -/
structure Vm where
  cpuIDs : List ℕ
  configName : Text
  cpuAffinity : ℕ
  numCpus : ℕ
deriving DecidableEq

/-- A binary copied to the output directory, by its name without `.bin`, and
the macros that are set in the guest's source before it is built. -/
structure Build where
  defines : List (Text × Text)
  bareName : Text
deriving DecidableEq

/-! ### Templates -/

/-- `find_sector`. -/
def findSector (content : Text) (pattern : Pattern) : List Text := pattern.findAll content

/-- `replace_config`, for a sector that is not empty. -/
def replaceConfig (config configSector newConfig : Text) : Text :=
  substitute configSector (fun _ => some newConfig) config

/-- The first sector found, replaced wherever it occurs; none is the
`IndexError` without one. -/
def replaceFirstSector (pattern : Pattern) (newConfig content : Text) : Option Text :=
  (findSector content pattern)[0]?.map fun sector => replaceConfig content sector newConfig

/-- A placeholder and the white space behind it. -/
def spaced (placeholder : Text) : Pattern := .seq (.lit placeholder) (.greedy isSpace 0)

def affinityLine (cpuAffinity : ℕ) : Text :=
  ".cpu_affinity = ".toList ++ upperHex cpuAffinity ++ ",\n".toList

def cpuNumLine (numCpus : ℕ) : Text := ".cpu_num = ".toList ++ showNat numCpus ++ ",\n".toList

/-- The path of a guest's image in the image directory. -/
def imagePath (benchmark configName : Text) : Text := benchmark ++ '/' :: configName

/-- The sectors of the image's name, each replaced if it is still there. -/
def replaceImageNames (imageName content : Text) : Text :=
  (findSector content (spaced "#baremetal_image_name#".toList)).foldl
    (fun content name =>
      if (find name content).isSome then replaceConfig content name imageName else content) content

/-- `genertate_config_file_content` of `baremetal_guests`. -/
def genertateConfigFileContent (guestConfigFile configName imageName benchmark : Text)
    (cpuAffinity numCpus : ℕ) : Option Text :=
  (replaceFirstSector (spaced "#baremetal_name#".toList) (imagePath benchmark configName)
    guestConfigFile).bind fun content =>
  (replaceFirstSector (.lit "#baremetal_cpu_affinity_config#\n".toList) (affinityLine cpuAffinity)
    (replaceImageNames imageName content)).bind fun content =>
  replaceFirstSector (.lit "#baremetal_cpu_num_config#\n".toList) (cpuNumLine numCpus) content

/-- The replacements of `linux_guests`. -/
def linuxConfigFileContent (guestConfigFile guestImageName benchmark : Text)
    (cpuAffinity numCpus : ℕ) : Option Text :=
  (replaceFirstSector (spaced "#linux_name#".toList) (imagePath benchmark guestImageName)
    guestConfigFile).bind fun content =>
  (replaceFirstSector (.lit "#linux_cpu_affinity_config#\n".toList) (affinityLine cpuAffinity)
    content).bind fun content =>
  replaceFirstSector (.lit "#linux_cpu_num_config#\n".toList) (cpuNumLine numCpus) content

/-! ### Bare-metal guests -/

/-- The configuration of `baremetal_guests`. -/
structure BaremetalGuests where
  srcDir : Text := []
  cpuIDs : List (List ℕ) := []
  mode : Text := "constant".toList

def BaremetalGuests.numCpus (g : BaremetalGuests) : List ℕ := g.cpuIDs.map List.length

/-- The loop over the CPUs of an entry. -/
def cpuMask (cpuIDs : List ℕ) : ℕ := cpuIDs.foldl (fun affinity cpu => affinity ||| (1 <<< cpu)) 0

/-- The configuration of `baremetal_cache_guests`. A text in place of the list
of operations is the list of its characters. -/
structure BaremetalCacheGuests extends BaremetalGuests where
  cacheLineSize : ℕ := 0
  interferenceBufferSize : List Text := []
  readWriteOperation : List Text := []

structure CacheGuest where
  srcDir : Text
  cacheLineSize : ℕ
  interferenceBufferSize : Text
  numCpus : ℕ
  cpuIDs : List ℕ
  readWriteOperation : Text

/-- Of the CPU lists of one length the first is taken. -/
def BaremetalCacheGuests.getConfigurations (g : BaremetalCacheGuests) : List CacheGuest :=
  g.interferenceBufferSize.flatMap fun ibs => g.numCpus.flatMap fun cpus =>
    let cpuIDs := g.cpuIDs.getD (g.numCpus.idxOf cpus) []
    g.readWriteOperation.map fun rw =>
      { srcDir := g.srcDir
        cacheLineSize := g.cacheLineSize
        interferenceBufferSize := ibs
        numCpus := cpus
        cpuIDs := cpuIDs
        readWriteOperation := rw }

/-- The words looked for in an operation and their letters, in order. -/
def operationWords : List (Text × Char) :=
  [("read".toList, 'r'), ("write".toList, 'w'), ("ivac".toList, 'i'), ("civac".toList, 'c')]

/-- The word is in the operation. -/
def hasWord (operation : Text) (word : Text × Char) : Bool := (find word.1 operation).isSome

def cacheName (rwOperation : Text) (numCpus : ℕ) (ibs : Text) : Text :=
  "baremetal_cache_".toList ++ rwOperation ++ "-C".toList ++ showNat numCpus ++ "-W".toList ++ ibs

/-- `rw_operation` of `build_guests`: the letters of all words. -/
def operationLetters (operation : Text) : Text :=
  (operationWords.filter (hasWord operation)).map Prod.snd

/-- `rw_operation` of `generate_guest_config_files`: each word overwrites it,
and without a word it keeps its value from the entry before. -/
def lastOperation (rwOperation : Option Char) (operation : Text) : Option Char :=
  operationWords.foldl
    (fun rw word => if hasWord operation word then some word.2 else rw) rwOperation

/-- The digits of an `int` literal, with single underscores between them;
`need` while a digit must come next. -/
def intDigits (u : UnicodeData) (need : Bool) (n : ℕ) : Text → Option ℕ
  | [] => if need then none else some n
  | c :: cs =>
    if c = '_' then if need then none else intDigits u true n cs
    else (u.decimal c).bind fun d => intDigits u false (10 * n + d) cs

/-- `int(s)` of a text with a sign. -/
def intOfSigned (u : UnicodeData) (s : Text) : Option ℤ :=
  match strip s with
  | '-' :: cs => (intDigits u true 0 cs).map fun n => -(n : ℤ)
  | '+' :: cs => (intDigits u true 0 cs).map Nat.cast
  | cs => (intDigits u true 0 cs).map Nat.cast

/-- `hex` of an integer. -/
def hexInt : ℤ → Text
  | .ofNat n => hex n
  | .negSucc n => '-' :: hex (n + 1)

/-- A megabyte is `1024 ** 2`. -/
def bytesConverter : Char → Option ℤ
  | 'M' => some (1024 * 1024)
  | 'K' => some 1024
  | _ => none

/-- `ibs_bytes`: the number before the unit, in bytes; none if there is no
such number or unit. -/
def ibsBytes (u : UnicodeData) (ibs : Text) : Option ℤ :=
  (intOfSigned u ibs.dropLast).bind fun n => (ibs.getLast?.bind bytesConverter).map (n * ·)

def CacheGuest.build (u : UnicodeData) (g : CacheGuest) : Option Build :=
  (ibsBytes u g.interferenceBufferSize).map fun ibsBytes =>
    let en (word : Text × Char) := showNat (if hasWord g.readWriteOperation word then 1 else 0)
    { defines :=
        [("CACHE_LINE_SIZE".toList, showNat g.cacheLineSize), ("NUM_CPUS".toList, showNat g.numCpus),
          ("INTERF_BUF_SIZE".toList, hexInt ibsBytes), ("ENABLE_READS".toList, en ("read".toList, 'r')),
          ("ENABLE_WRITES".toList, en ("write".toList, 'w')),
          ("IVAC_CACHE".toList, en ("ivac".toList, 'i')),
          ("CIVAC_CACHE".toList, en ("civac".toList, 'c'))]
      bareName := cacheName (operationLetters g.readWriteOperation) g.numCpus
        g.interferenceBufferSize }

def CacheGuest.vm (g : CacheGuest) (rwOperation : Char) : Vm where
  cpuIDs := g.cpuIDs
  configName := cacheName [rwOperation] g.cpuIDs.length g.interferenceBufferSize
  cpuAffinity := cpuMask g.cpuIDs
  numCpus := g.cpuIDs.length

/-- The VMs of the entries, with `rw_operation` carried along; none if an
entry finds it unset. -/
def cacheVms : (rwOperation : Option Char) → List CacheGuest → Option (List Vm)
  | _, [] => some []
  | rwOperation, g :: gs =>
    (lastOperation rwOperation g.readWriteOperation).bind fun rw =>
      (cacheVms (some rw) gs).map fun vms => g.vm rw :: vms

/-- The configuration of `baremetal_embench_guests`. -/
structure BaremetalEmbenchGuests extends BaremetalGuests where
  benchmarks : List Text := []

structure EmbenchGuest where
  srcDir : Text
  benchmark : Text
  numCpus : ℕ
  cpuIDs : List ℕ

/-- None is the `IndexError` without a CPU list. -/
def BaremetalEmbenchGuests.getConfigurations (g : BaremetalEmbenchGuests) :
    Option (List EmbenchGuest) :=
  g.benchmarks.mapM fun benchmark => g.cpuIDs[0]?.map fun cpuIDs =>
    { srcDir := g.srcDir
      benchmark := benchmark
      numCpus := g.cpuIDs.length
      cpuIDs := cpuIDs }

/-- `src_dir.split('/')[-1]`. -/
def lastComponent (srcDir : Text) : Text := (srcDir.splitOn '/').getLastD []

def embenchName (prefixName benchmark : Text) (numCpus : ℕ) : Text :=
  prefixName ++ "_".toList ++ benchmark ++ "-C".toList ++ showNat numCpus

def EmbenchGuest.build (g : EmbenchGuest) : Build where
  defines := []
  bareName := embenchName "baremetal_embench".toList g.benchmark g.numCpus

def EmbenchGuest.vm (g : EmbenchGuest) : Vm where
  cpuIDs := g.cpuIDs
  configName := embenchName (lastComponent g.srcDir) g.benchmark g.cpuIDs.length
  cpuAffinity := cpuMask g.cpuIDs
  numCpus := g.cpuIDs.length

/-- The configuration of `baremetal_cci_guests`, `ila` included. -/
structure BaremetalCciGuests extends BaremetalGuests where
  snoopTypes : List ℕ := [1]
  channels : List ℕ := []
  testTypes : List Text := ["TEST_TYPE_SOLO".toList]
  coherency : List ℕ := [0]

structure CciGuest where
  testType : Text
  snoopType : ℕ
  channels : ℕ
  coherency : ℕ
  cpuIDs : List ℕ

/-- None is the `IndexError` without two CPU lists. -/
def BaremetalCciGuests.getConfigurations (g : BaremetalCciGuests) : Option (List CciGuest) :=
  g.cpuIDs[0]?.bind fun cpuIdsSolo => g.cpuIDs[1]?.map fun cpuIdsDma =>
    g.testTypes.flatMap fun tt => g.snoopTypes.flatMap fun snoop => g.coherency.flatMap fun coh =>
      if tt = "TEST_TYPE_SOLO".toList then [⟨tt, snoop, 0, coh, cpuIdsSolo⟩]
      else g.channels.map fun ch => ⟨tt, snoop, ch, coh, cpuIdsDma⟩

def CciGuest.configName (g : CciGuest) : Text :=
  "baremetal_cci_".toList ++ g.testType ++ "_snoop".toList ++ showNat g.snoopType ++
    "_ch".toList ++ showNat g.channels ++ "_coh".toList ++ showNat g.coherency ++
    "_C".toList ++ showNat g.cpuIDs.length

def CciGuest.build (g : CciGuest) : Build where
  defines :=
    [("TEST_TYPE".toList, g.testType), ("SNOOP_TYPE".toList, showNat g.snoopType),
      ("DMA_CHANNELS".toList, showNat g.channels), ("COHERENCY".toList, showNat g.coherency),
      ("NUM_CPUS".toList, showNat g.cpuIDs.length)]
  bareName := g.configName

def CciGuest.vm (g : CciGuest) : Vm where
  cpuIDs := g.cpuIDs
  configName := g.configName
  cpuAffinity := cpuMask g.cpuIDs
  numCpus := g.cpuIDs.length

/-! ### Linux guests -/

/-- The configuration of `linux_guests`. -/
structure LinuxGuests where
  bootCommands : List (List Text) := []
  cpuIDs : List (List ℕ) := [[0]]

structure LinuxGuest where
  bootCommands : List Text
  workloadName : Option Text
  numCpus : ℕ
  cpuIDs : List ℕ

/-- With boot commands there is an entry for each, which takes the place of
the one without. -/
def LinuxGuests.getConfigurations (g : LinuxGuests) : Option (List LinuxGuest) :=
  g.cpuIDs[0]?.bind fun cpuIDs =>
    if g.bootCommands = [] then some [⟨[], none, g.cpuIDs.length, cpuIDs⟩]
    else g.bootCommands.mapM fun command => command[0]?.map fun name =>
      ⟨command.tail, some name, g.cpuIDs.length, cpuIDs⟩

def linuxName (workloadName : Text) : Text := "linux_".toList ++ workloadName

/-- None is the `KeyError` without a workload, or the `IndexError` without a CPU. -/
def LinuxGuest.vm (g : LinuxGuest) : Option Vm :=
  g.workloadName.bind fun name => g.cpuIDs[0]?.map fun cpu =>
    { cpuIDs := g.cpuIDs
      configName := linuxName name
      cpuAffinity := cpu
      numCpus := g.numCpus }

def LinuxGuest.build (g : LinuxGuest) : Option Build :=
  g.workloadName.map fun name => ⟨[], linuxName name⟩

end Guests

/-! ### Guest objects -/

open Guests

/-- A guest object of one of the classes, after `read_config`. -/
inductive Guests
  | cache (g : BaremetalCacheGuests)
  | embench (g : BaremetalEmbenchGuests)
  | cci (g : BaremetalCciGuests)
  | linux (g : LinuxGuests)

namespace Guests

open Literal Regex

/-- The VMs of all entries; none if the class raises. -/
def vms : Guests → Option (List Vm)
  | cache g => cacheVms none g.getConfigurations
  | embench g => g.getConfigurations.map fun entries => entries.map EmbenchGuest.vm
  | cci g => g.getConfigurations.map fun entries => entries.map CciGuest.vm
  | linux g => g.getConfigurations.bind fun entries => entries.mapM LinuxGuest.vm

/-- The binaries of all entries, where `make` succeeds; none if the class raises. -/
def buildGuests (u : UnicodeData) : Guests → Option (List Build)
  | cache g => g.getConfigurations.mapM (CacheGuest.build u)
  | embench g => g.getConfigurations.map fun entries => entries.map EmbenchGuest.build
  | cci g => g.getConfigurations.map fun entries => entries.map CciGuest.build
  | linux g => g.getConfigurations.bind fun entries => entries.mapM LinuxGuest.build

/-- The template filled in for one VM. -/
def fill (benchmark template : Text) (vm : Vm) : Guests → Option Text
  | cache _ => genertateConfigFileContent template vm.configName "baremetal_cache".toList benchmark
      vm.cpuAffinity vm.numCpus
  | embench g => genertateConfigFileContent template vm.configName (lastComponent g.srcDir) benchmark
      vm.cpuAffinity vm.numCpus
  | cci _ => genertateConfigFileContent template vm.configName vm.configName benchmark
      vm.cpuAffinity vm.numCpus
  | linux _ => linuxConfigFileContent template vm.configName benchmark vm.cpuAffinity vm.numCpus

def generateGuestConfigFiles (benchmark template : Text) (g : Guests) : Option (Dict Text Text) :=
  (g.vms.bind fun vms => vms.mapM fun vm =>
    (g.fill benchmark template vm).map fun content => (vm.configName, content)).map Dict.ofList

/-! ### What is emitted -/

section
variable {pattern : Pattern} {new content out : Text}

/-- A replaced sector is in the content, and what replaces it in the result. -/
theorem exists_sector (h : replaceFirstSector pattern new content = some out) :
    ∃ sector t, ∃ m ∈ pattern.matches t, sector = m.taken ∧ sector <:+: content ∧
      out = replaceConfig content sector new := by
  obtain ⟨sector, hsector, rfl⟩ := Option.map_eq_some_iff.mp h
  obtain ⟨hin, t, m, hm, hx⟩ := mem_findAllFrom (List.mem_of_getElem? hsector)
  exact ⟨sector, t, m, hm, hx, hin, rfl⟩

/-- The sector of a literal is the literal. -/
theorem replaceFirstSector_lit {w : Text} (h : replaceFirstSector (.lit w) new content = some out) :
    w <:+: content ∧ out = replaceConfig content w new := by
  obtain ⟨sector, t, m, hm, rfl, hin, rfl⟩ := exists_sector h
  obtain ⟨-, rfl, -⟩ := mem_matches_lit.mp hm
  exact ⟨hin, rfl⟩

/-- The sector of a spaced placeholder starts with it, white space follows. -/
theorem taken_spaced {w t : Text} {m : Match} (hm : m ∈ (spaced w).matches t) :
    ∃ blank, m.taken = w ++ blank ∧ ∀ c ∈ blank, isSpace c = true := by
  obtain ⟨a, ha, b, hb, rfl⟩ := mem_matches_seq.mp hm
  obtain ⟨-, rfl, -⟩ := mem_matches_lit.mp ha
  exact ⟨b.taken, rfl, (mem_runMatches.mp (List.mem_reverse.mp hb)).2.2.1⟩

end

/-- A part of the VM configuration that no placeholder can overlap: it has a
character that no placeholder has, and before it neither white space nor the
mark of a placeholder. -/
structure Part (e : Text) : Prop where
  mark : '#' ∉ e
  split : ∃ e₁ c e₂, e = e₁ ++ c :: e₂ ∧ (c = '.' ∨ c = '/') ∧ ∀ x ∈ e₁, isSpace x = false

/-- A placeholder with white space behind it. -/
structure Sector (s : Text) : Prop where
  head : ∃ p, s = '#' :: p
  notMem : '.' ∉ s ∧ '/' ∉ s
  last : ∀ x ∈ s.getLast?, x = '#' ∨ isSpace x = true

theorem last_of_getLast? {s : Text} {c : Char} (h : s.getLast? = some c)
    (hc : c = '#' ∨ isSpace c = true) : ∀ x ∈ s.getLast?, x = '#' ∨ isSpace x = true := by
  intro x hx
  rw [h] at hx
  rwa [← Option.some.inj hx]

theorem Part.stays {e s new content : Text} (he : Part e) (hs : Sector s) (h : e <:+: content) :
    e <:+: replaceConfig content s new := by
  obtain ⟨p, rfl⟩ := hs.head
  obtain ⟨e₁, c, e₂, rfl, hc, hblank⟩ := he.split
  refine infix_substitute he.mark ?_ (fun x hx hmem => ?_) h
  · rcases hc with rfl | rfl
    · exact hs.notMem.1
    · exact hs.notMem.2
  · rcases hs.last x hx with rfl | hx
    · exact he.mark (List.mem_append_left _ hmem)
    · rw [hblank x hmem] at hx
      exact Bool.false_ne_true hx

theorem sector_append {w blank : Text} (hw : Sector w)
    (hblank : ∀ c ∈ blank, isSpace c = true) : Sector (w ++ blank) where
  head := by
    obtain ⟨p, rfl⟩ := hw.head
    exact ⟨p ++ blank, rfl⟩
  notMem := by
    refine ⟨fun h => ?_, fun h => ?_⟩
    · exact (List.mem_append.mp h).elim hw.notMem.1 fun h => absurd (hblank _ h) (by decide)
    · exact (List.mem_append.mp h).elim hw.notMem.2 fun h => absurd (hblank _ h) (by decide)
  last := by
    intro x hx
    by_cases hne : blank = []
    · rw [hne, List.append_nil] at hx
      exact hw.last x hx
    · rw [List.getLast?_append_of_ne_nil _ hne] at hx
      exact .inr (hblank x (List.mem_of_getLast? hx))

theorem Part.stays_image {e imageName content : Text} (he : Part e) (h : e <:+: content) :
    e <:+: replaceImageNames imageName content := by
  have hsector : ∀ s ∈ findSector content (spaced "#baremetal_image_name#".toList), Sector s := by
    intro s hs
    obtain ⟨-, t, m, hm, rfl⟩ := mem_findAllFrom hs
    obtain ⟨blank, hblank, hall⟩ := taken_spaced hm
    rw [hblank]
    exact sector_append ⟨⟨_, rfl⟩, by decide, last_of_getLast? (c := '#') (by decide) (.inl rfl)⟩ hall
  rw [replaceImageNames]
  generalize findSector content (spaced "#baremetal_image_name#".toList) = sectors at hsector
  induction sectors generalizing content with
  | nil => exact h
  | cons s sectors ih =>
    refine ih ?_ fun s' hs' => hsector s' (List.mem_cons_of_mem s hs')
    show e <:+: if (find s content).isSome then replaceConfig content s imageName else content
    split
    · exact he.stays (hsector s List.mem_cons_self) h
    · exact h

theorem part_affinityLine (cpuAffinity : ℕ) : Part (affinityLine cpuAffinity) where
  mark := by
    unfold affinityLine
    rw [List.mem_append, List.mem_append, not_or, not_or]
    refine ⟨⟨by decide, fun h => ?_⟩, by decide⟩
    rw [upperHex, List.mem_cons, List.mem_cons] at h
    rcases h with h | h | h
    · exact absurd h (by decide)
    · exact absurd h (by decide)
    · obtain ⟨c, hc, hmark⟩ := List.mem_map.mp h
      obtain ⟨d, hd, rfl⟩ := mem_toDigits _ c hc
      have hne : ∀ d < 16, (Nat.digitChar d).toUpper ≠ '#' := by decide
      exact hne d hd hmark
  split := by
    refine ⟨[], '.', "cpu_affinity = ".toList ++ (upperHex cpuAffinity ++ ",\n".toList), ?_, .inl rfl,
      fun x hx => by cases hx⟩
    unfold affinityLine
    rw [List.append_assoc]
    rfl

theorem part_imagePath {benchmark configName : Text}
    (hb : ∀ c ∈ benchmark, c ≠ '#' ∧ isSpace c = false) (hc : '#' ∉ configName) :
    Part (imagePath benchmark configName) where
  mark := by
    rw [imagePath, List.mem_append, List.mem_cons, not_or, not_or]
    exact ⟨fun h => (hb _ h).1 rfl, by decide, hc⟩
  split := ⟨benchmark, '/', configName, rfl, .inr rfl, fun c h => (hb c h).2⟩

theorem infix_replaceConfig {w new content : Text} (hne : w ≠ []) (h : w <:+: content) :
    new <:+: replaceConfig content w new := infix_substitute_self hne h

/-- What replaces the first sector of a spaced placeholder is in the result. -/
theorem spaced_emitted {w new content out : Text} (hw : w ≠ [])
    (h : replaceFirstSector (spaced w) new content = some out) : new <:+: out := by
  obtain ⟨sector, t, m, hm, rfl, hin, rfl⟩ := exists_sector h
  obtain ⟨blank, hblank, -⟩ := taken_spaced hm
  refine infix_replaceConfig (fun hnil => hw ?_) hin
  rw [hblank] at hnil
  exact (List.append_eq_nil_iff.mp hnil).1

/-- The last two replacements: both lines are in the result, and so is a part
that was there before. -/
theorem lines_emitted {w w' content content' out : Text} {cpuAffinity numCpus : ℕ}
    (hw : Sector w) (hw' : Sector w')
    (h : replaceFirstSector (.lit w) (affinityLine cpuAffinity) content = some content')
    (h' : replaceFirstSector (.lit w') (cpuNumLine numCpus) content' = some out) :
    affinityLine cpuAffinity <:+: out ∧ cpuNumLine numCpus <:+: out ∧
      ∀ e, Part e → e <:+: content → e <:+: out := by
  obtain ⟨hin, rfl⟩ := replaceFirstSector_lit h
  obtain ⟨hin', rfl⟩ := replaceFirstSector_lit h'
  obtain ⟨p, rfl⟩ := hw.head
  obtain ⟨p', rfl⟩ := hw'.head
  refine ⟨(part_affinityLine cpuAffinity).stays hw' ?_, ?_, fun e he hcontent => ?_⟩
  · exact infix_replaceConfig (List.cons_ne_nil _ _) hin
  · exact infix_replaceConfig (List.cons_ne_nil _ _) hin'
  · exact he.stays hw' (he.stays hw hcontent)

/-- A filled template shows the two lines of the VM, and the path of its image
where the names are plain. -/
theorem fill_emits {benchmark template out : Text} {vm : Vm} {g : Guests}
    (h : g.fill benchmark template vm = some out) :
    affinityLine vm.cpuAffinity <:+: out ∧ cpuNumLine vm.numCpus <:+: out ∧
      ((∀ c ∈ benchmark, c ≠ '#' ∧ isSpace c = false) → '#' ∉ vm.configName →
        imagePath benchmark vm.configName <:+: out) := by
  have hbaremetal : ∀ {imageName : Text}, genertateConfigFileContent template vm.configName imageName
      benchmark vm.cpuAffinity vm.numCpus = some out →
      affinityLine vm.cpuAffinity <:+: out ∧ cpuNumLine vm.numCpus <:+: out ∧
        ((∀ c ∈ benchmark, c ≠ '#' ∧ isSpace c = false) → '#' ∉ vm.configName →
          imagePath benchmark vm.configName <:+: out) := by
    intro imageName h
    obtain ⟨content, hname, h⟩ := Option.bind_eq_some_iff.mp h
    obtain ⟨content', haffinity, hnum⟩ := Option.bind_eq_some_iff.mp h
    obtain ⟨h₁, h₂, hparts⟩ := lines_emitted
      ⟨⟨_, rfl⟩, by decide, last_of_getLast? (c := '\n') (by decide) (.inr (by decide))⟩
      ⟨⟨_, rfl⟩, by decide, last_of_getLast? (c := '\n') (by decide) (.inr (by decide))⟩ haffinity hnum
    refine ⟨h₁, h₂, fun hb hc => ?_⟩
    have hpart := part_imagePath hb hc
    exact hparts _ hpart (hpart.stays_image (spaced_emitted (by decide) hname))
  cases g with
  | cache g => exact hbaremetal h
  | embench g => exact hbaremetal h
  | cci g => exact hbaremetal h
  | linux g =>
    obtain ⟨content, hname, h⟩ := Option.bind_eq_some_iff.mp h
    obtain ⟨content', haffinity, hnum⟩ := Option.bind_eq_some_iff.mp h
    obtain ⟨h₁, h₂, hparts⟩ := lines_emitted
      ⟨⟨_, rfl⟩, by decide, last_of_getLast? (c := '\n') (by decide) (.inr (by decide))⟩
      ⟨⟨_, rfl⟩, by decide, last_of_getLast? (c := '\n') (by decide) (.inr (by decide))⟩ haffinity hnum
    refine ⟨h₁, h₂, fun hb hc => ?_⟩
    exact hparts _ (part_imagePath hb hc) (spaced_emitted (by decide) hname)

/-! ### Affinity -/

/-- The affinity emitted for a VM, read as a mask, has the bits of its CPUs,
and the number of CPUs emitted is theirs and that of the bits. -/
def AffinityRight (vm : Vm) : Prop :=
  ∃ (literal : Text) (mask : ℕ),
    affinityLine vm.cpuAffinity = ".cpu_affinity = ".toList ++ literal ++ ",\n".toList ∧
    intOfHex literal = some (mask : ℤ) ∧ (∀ i, mask.testBit i = true ↔ i ∈ vm.cpuIDs) ∧
    cpuNumLine vm.numCpus = cpuNumLine vm.cpuIDs.length ∧ popcount mask = vm.cpuIDs.length

theorem testBit_cpuMask (cpuIDs : List ℕ) (i : ℕ) :
    (cpuMask cpuIDs).testBit i = true ↔ i ∈ cpuIDs := by
  rw [cpuMask, testBit_foldl_or_bit]
  simp

/-- The bare-metal classes compute the mask and the number of the CPUs. -/
theorem affinityRight_of_mask {vm : Vm} (hnd : vm.cpuIDs.Nodup)
    (hmask : vm.cpuAffinity = cpuMask vm.cpuIDs) (hnum : vm.numCpus = vm.cpuIDs.length) :
    AffinityRight vm := by
  have hbits := testBit_cpuMask vm.cpuIDs
  exact ⟨upperHex vm.cpuAffinity, cpuMask vm.cpuIDs, rfl, by rw [intOfHex_upperHex, hmask], hbits,
    by rw [hnum], popcount_of_bits hnd hbits⟩

/-- A CPU's number is never the mask of a list with that CPU. -/
theorem not_affinityRight_of_mem {vm : Vm} (h : vm.cpuAffinity ∈ vm.cpuIDs) : ¬ AffinityRight vm := by
  rintro ⟨literal, mask, hline, hint, hbits, -, -⟩
  obtain rfl : upperHex vm.cpuAffinity = literal :=
    List.append_cancel_left (List.append_cancel_right hline)
  rw [intOfHex_upperHex, Option.some.injEq, Int.ofNat_inj] at hint
  have hbit : mask.testBit mask = true := (hbits mask).mpr (hint ▸ h)
  exact Nat.lt_irrefl mask (Nat.lt_two_pow_self.trans_le (Nat.ge_two_pow_of_testBit hbit))

theorem cacheVms_spec : ∀ {rwOperation : Option Char} {gs : List CacheGuest} {vms : List Vm},
    cacheVms rwOperation gs = some vms → ∀ vm ∈ vms, ∃ g ∈ gs, ∃ rw, vm = g.vm rw
  | _, [], vms, h, vm, hvm => by
    rw [cacheVms, Option.some.injEq] at h
    rw [← h] at hvm
    cases hvm
  | rwOperation, g :: gs, vms, h, vm, hvm => by
    rw [cacheVms] at h
    obtain ⟨rw', -, h⟩ := Option.bind_eq_some_iff.mp h
    obtain ⟨vms', hvms', rfl⟩ := Option.map_eq_some_iff.mp h
    rcases List.mem_cons.mp hvm with rfl | hvm
    · exact ⟨g, List.mem_cons_self, rw', rfl⟩
    · obtain ⟨g', hg', hrest⟩ := cacheVms_spec hvms' vm hvm
      exact ⟨g', List.mem_cons_of_mem g hg', hrest⟩

/-- What the VMs of each class are. -/
theorem vms_spec {g : Guests} {vms : List Vm} (h : g.vms = some vms) : ∀ vm ∈ vms,
    match g with
    | .linux _ => vm.cpuIDs[0]? = some vm.cpuAffinity
    | _ => vm.cpuAffinity = cpuMask vm.cpuIDs ∧ vm.numCpus = vm.cpuIDs.length := by
  intro vm hvm
  cases g with
  | cache g =>
    obtain ⟨entry, -, rw', rfl⟩ := cacheVms_spec h vm hvm
    exact ⟨rfl, rfl⟩
  | embench g =>
    obtain ⟨entries, -, rfl⟩ := Option.map_eq_some_iff.mp h
    obtain ⟨entry, -, rfl⟩ := List.mem_map.mp hvm
    exact ⟨rfl, rfl⟩
  | cci g =>
    obtain ⟨entries, -, rfl⟩ := Option.map_eq_some_iff.mp h
    obtain ⟨entry, -, rfl⟩ := List.mem_map.mp hvm
    exact ⟨rfl, rfl⟩
  | linux g =>
    obtain ⟨entries, -, h⟩ := Option.bind_eq_some_iff.mp h
    obtain ⟨entry, -, hentry⟩ := exists_of_mem_mapM h hvm
    obtain ⟨name, -, hentry⟩ := Option.bind_eq_some_iff.mp hentry
    obtain ⟨cpu, hcpu, rfl⟩ := Option.map_eq_some_iff.mp hentry
    exact hcpu

/-- **Main result.** The affinity of a VM is right in all classes but the one
of Linux guests, where it never is. -/
theorem affinity_iff {g : Guests} {vms : List Vm} (h : g.vms = some vms) {vm : Vm} (hvm : vm ∈ vms)
    (hnd : vm.cpuIDs.Nodup) : AffinityRight vm ↔ ∀ l, g ≠ .linux l := by
  have hspec := vms_spec h vm hvm
  cases g with
  | linux l =>
    refine ⟨fun hright => ?_, fun hnot => absurd rfl (hnot l)⟩
    exact absurd hright (not_affinityRight_of_mem (List.mem_of_getElem? hspec))
  | cache _ | embench _ | cci _ =>
    exact ⟨fun _ l => Guests.noConfusion, fun _ => affinityRight_of_mask hnd hspec.1 hspec.2⟩

/-- A cache guest on three CPUs. -/
def threeCpuCache : Guests := .cache
  { srcDir := "../guests/baremetal/baremetal_cache".toList
    cpuIDs := [[1, 2, 3]]
    cacheLineSize := 64
    interferenceBufferSize := ["1M".toList]
    readWriteOperation := ["write".toList] }

def threeCpuVm : Vm := ⟨[1, 2, 3], "baremetal_cache_w-C3-W1M".toList, 14, 3⟩

theorem affinity_iff_threeCpuCache : AffinityRight threeCpuVm ↔ ∀ l, threeCpuCache ≠ .linux l :=
  have h : threeCpuCache.vms = some [threeCpuVm] := by decide +kernel
  affinity_iff h List.mem_cons_self (by decide)

/-- A Linux guest on the CPUs 1 and 2. -/
def twoCpuLinux : Guests := .linux
  { bootCommands := [["susanc_small".toList, "./runme_small-c.sh".toList]]
    cpuIDs := [[1, 2]] }

/-- Its mask is that of CPU 0, its number of CPUs 1. -/
theorem twoCpuLinux_wrong : ∃ vm, twoCpuLinux.vms = some [vm] ∧ vm.cpuIDs = [1, 2] ∧
    affinityLine vm.cpuAffinity = ".cpu_affinity = 0x1,\n".toList ∧
    cpuNumLine vm.numCpus = ".cpu_num = 1,\n".toList ∧ ¬ AffinityRight vm := by
  refine ⟨⟨[1, 2], "linux_susanc_small".toList, 1, 1⟩, by decide +kernel, rfl, by decide +kernel,
    by decide +kernel, not_affinityRight_of_mem List.mem_cons_self⟩

end Guests
end DaatMcs
