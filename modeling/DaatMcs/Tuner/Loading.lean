/-
# Loading the result files

`load_all_files` goes through the directories and the files in them as they
are listed, and stores the checkpoints of each file under the workloads, the
CPU and the configuration that its name is read as. Two names of one
directory can be read the same; then the file that happens to be listed last
stays. `orderFree_iff`: exactly the data in which such files agree, or are
overwritten by a later directory, do not depend on the listing.
-/
import DaatMcs.Lib.LastWrite
import DaatMcs.Tuner.Checkpoints
import DaatMcs.Tuner.FileNames
import DaatMcs.Tuner.Matrices

namespace DaatMcs
namespace Tuner

/-! ### The data -/

/-- A place in the data. -/
structure Slot where
  key : Key
  cpu : Text
  cfg : Text
deriving DecidableEq

def Data.at (data : Data) (slot : Slot) : Option (List ℤ) :=
  ((data.get? slot.key).bind (·.get? slot.cpu)).bind (·.get? slot.cfg)

/-- `==` of dictionaries, by `==` of their values. -/
def dictEq {κ υ : Type*} [DecidableEq κ] (r : υ → υ → Prop) (d d' : Dict κ υ) : Prop :=
  ∀ k, Option.Rel r (d.get? k) (d'.get? k)

/-- `==` of the data. -/
def Data.Same : Data → Data → Prop := dictEq (dictEq (dictEq Eq))

/-! ### Loading -/

/-- The files of a directory with their texts, as `os.listdir` lists them. -/
abbrev Listing := Dict Text Text

/-- `data.setdefault(key, {}).setdefault(cpu, {})`, then
`data[key][cpu][cfg] = checkpoints`. -/
def storeCheckpoints (key : Key) (cfg : Text) (data : Data) (e : Text × List ℤ) : Data :=
  let cpus := (data.get? key).getD .empty
  let cfgs := (cpus.get? e.1).getD .empty
  data.insert key (cpus.insert e.1 (cfgs.insert cfg e.2))

/-- `"interf" if tag is None else tag`. -/
def cfgOf (tag : Option Text) : Text := tag.getD interf

/-- What `parse_cpu_checkpoints` returns, as the integers they are. -/
def readCheckpoints (u : UnicodeData) (text : Text) : Option (Dict Text (List ℤ)) :=
  (parseCpuCheckpoints u text).map (·.filterMapValues fun checkpoints => some (checkpoints.map Int.ofNat))

/-- The body of the loop over the files; reading one may raise. -/
def loadFile (u : UnicodeData) (data : Data) (file : Text × Text) : Option Data :=
  match parseFilename u file.1 with
  | none => some data
  | some (cpu0, cpu1, cpu2, tag) =>
    (readCheckpoints u file.2).map fun checkpointData =>
      checkpointData.items.foldl (storeCheckpoints (cpu0, cpu1, cpu2) (cfgOf tag)) data

/-- There may be no directory of that name. -/
def loadDir (u : UnicodeData) (data : Data) (directory : Option Listing) : Option Data :=
  directory.bind fun d => d.items.foldlM (loadFile u) data

def loadAllFiles (u : UnicodeData) (dirs : List (Option Listing)) : Option Data :=
  dirs.foldlM (loadDir u) .empty

/-! ### Listings -/

/-- The same directories, each listed in some order. -/
def Relisted (dirs dirs' : List (Option Listing)) : Prop :=
  List.Forall₂ (Option.Rel fun d d' => d.items.Perm d'.items) dirs dirs'

/-- What is loaded does not depend on the order of the listings. -/
def OrderFree (u : UnicodeData) (dirs : List (Option Listing)) : Prop :=
  ∀ dirs', Relisted dirs dirs' → Option.Rel Data.Same (loadAllFiles u dirs) (loadAllFiles u dirs')

/-- The directories are there, and `int` reads the digits in their result
files. -/
def Readable (u : UnicodeData) (dirs : List (Option Listing)) : Prop :=
  ∀ dir ∈ dirs, ∃ d, dir = some d ∧ ∀ file ∈ d.items, (parseFilename u file.1).isSome →
    (readCheckpoints u file.2).isSome

def filesOf (dirs : List (Option Listing)) : List (List (Text × Text)) :=
  dirs.map fun dir => dir.elim [] (·.items)

/-- The checkpoints a file has for a slot. -/
def checkpointsFor (u : UnicodeData) (file : Text × Text) (slot : Slot) : Option (List ℤ) :=
  match parseFilename u file.1 with
  | none => none
  | some (cpu0, cpu1, cpu2, tag) =>
    if (cpu0, cpu1, cpu2) = slot.key ∧ cfgOf tag = slot.cfg then
      (readCheckpoints u file.2).bind (·.get? slot.cpu)
    else none

/-! ### What is stored where -/

theorem get?_getD_empty {κ υ : Type*} [DecidableEq κ] (d : Option (Dict κ υ)) (k : κ) :
    (d.getD .empty).get? k = d.bind (·.get? k) := by
  cases d <;> rfl

theorem at_storeCheckpoints (key : Key) (cfg : Text) (data : Data) (e : Text × List ℤ) (slot : Slot) :
    (storeCheckpoints key cfg data e).at slot =
      if slot = ⟨key, e.1, cfg⟩ then some e.2 else data.at slot := by
  obtain ⟨key', cpu', cfg'⟩ := slot
  simp only [storeCheckpoints, Data.at, Dict.get?_insert, Slot.mk.injEq]
  by_cases hkey : key' = key
  · by_cases hcpu : cpu' = e.1
    · by_cases hcfg : cfg' = cfg
      · simp [hkey, hcpu, hcfg, Dict.get?_insert]
      · simp [hkey, hcpu, hcfg, Dict.get?_insert, get?_getD_empty]
    · simp [hkey, hcpu, Dict.get?_insert, get?_getD_empty]
  · simp [hkey]

theorem at_foldl_store (key : Key) (cfg : Text) (slot : Slot) : ∀ (l : List (Text × List ℤ)),
    (l.map Prod.fst).Nodup → ∀ data : Data,
    (l.foldl (storeCheckpoints key cfg) data : Data).at slot =
      (if key = slot.key ∧ cfg = slot.cfg then (l.find? fun e => e.1 = slot.cpu).map Prod.snd
        else none).or (data.at slot)
  | [], _, data => by simp
  | e :: l, hl, data => by
    rw [List.map_cons, List.nodup_cons] at hl
    obtain ⟨key', cpu', cfg'⟩ := slot
    rw [List.foldl_cons, at_foldl_store key cfg _ l hl.2, at_storeCheckpoints, List.find?_cons]
    by_cases hslot : key = key' ∧ cfg = cfg'
    · obtain ⟨rfl, rfl⟩ := hslot
      by_cases hcpu : e.1 = cpu'
      · -- the later entries are for other CPUs
        subst hcpu
        have hrest : l.find? (fun x => x.1 = e.1) = none :=
          List.find?_eq_none.mpr fun x hx h => hl.1 (List.mem_map.mpr ⟨x, hx, by simpa using h⟩)
        simp [hrest]
      · simp [hcpu, Ne.symm hcpu]
    · have hne : ¬ (key' = key ∧ cpu' = e.1 ∧ cfg' = cfg) := fun h => hslot ⟨h.1.symm, h.2.2.symm⟩
      simp [hslot, hne]

theorem at_loadFile {u : UnicodeData} {data data' : Data} {file : Text × Text}
    (h : loadFile u data file = some data') (slot : Slot) :
    data'.at slot = (checkpointsFor u file slot).or (data.at slot) := by
  unfold loadFile at h
  unfold checkpointsFor
  cases hname : parseFilename u file.1 with
  | none =>
    rw [hname] at h
    rw [Option.some.inj h]
    rfl
  | some p =>
    obtain ⟨cpu0, cpu1, cpu2, tag⟩ := p
    rw [hname] at h
    obtain ⟨checkpointData, hread, rfl⟩ := Option.map_eq_some_iff.mp h
    rw [at_foldl_store _ _ _ _ checkpointData.nodup, hread]
    rfl

theorem at_loadFiles {u : UnicodeData} (slot : Slot) : ∀ {files : List (Text × Text)} {data data' : Data},
    files.foldlM (loadFile u) data = some data' →
    data'.at slot = (lastWrite (checkpointsFor u) files slot).or (data.at slot)
  | [], data, data', h => by
    rw [← Option.some.inj h]
    rfl
  | file :: files, data, data', h => by
    rw [List.foldlM_cons] at h
    obtain ⟨data₁, hfile, hrest⟩ := Option.bind_eq_some_iff.mp h
    rw [at_loadFiles slot hrest, at_loadFile hfile, lastWrite, Option.or_assoc]

theorem at_loadDirs {u : UnicodeData} (slot : Slot) : ∀ {dirs : List (Option Listing)} {data data' : Data},
    dirs.foldlM (loadDir u) data = some data' →
    data'.at slot = (lastWrite (checkpointsFor u) (filesOf dirs).flatten slot).or (data.at slot)
  | [], data, data', h => by
    rw [← Option.some.inj h]
    rfl
  | dir :: dirs, data, data', h => by
    rw [List.foldlM_cons] at h
    obtain ⟨data₁, hdir, hrest⟩ := Option.bind_eq_some_iff.mp h
    obtain ⟨d, rfl, hfiles⟩ := Option.bind_eq_some_iff.mp hdir
    have hflat : (filesOf (some d :: dirs)).flatten = d.items ++ (filesOf dirs).flatten := rfl
    rw [at_loadDirs slot hrest, at_loadFiles slot hfiles, hflat, lastWrite_append, Option.or_assoc]

/-! ### The same data -/

/-- No dictionary in the data is empty. -/
structure Filled (data : Data) : Prop where
  key : ∀ key cpus, data.get? key = some cpus → ∃ cpu cfg, (data.at ⟨key, cpu, cfg⟩).isSome
  cpu : ∀ key cpus cpu cfgs, data.get? key = some cpus → cpus.get? cpu = some cfgs →
    ∃ cfg, (data.at ⟨key, cpu, cfg⟩).isSome

theorem filled_empty : Filled (.empty : Data) :=
  ⟨fun _ _ h => (Option.some_ne_none _ h.symm).elim, fun _ _ _ _ h => (Option.some_ne_none _ h.symm).elim⟩

theorem Filled.store {data : Data} (h : Filled data) (key : Key) (cfg : Text) (e : Text × List ℤ) :
    Filled (storeCheckpoints key cfg data e) := by
  have hself : ((storeCheckpoints key cfg data e).at ⟨key, e.1, cfg⟩).isSome := by
    rw [at_storeCheckpoints, if_pos rfl]
    rfl
  have hkeep : ∀ slot, (data.at slot).isSome → ((storeCheckpoints key cfg data e).at slot).isSome := by
    intro slot hslot
    rw [at_storeCheckpoints]
    split
    · rfl
    · exact hslot
  refine ⟨fun key' cpus hcpus => ?_, fun key' cpus cpu cfgs hcpus hcfgs => ?_⟩
  · rw [storeCheckpoints, Dict.get?_insert] at hcpus
    split at hcpus
    · next heq => exact ⟨e.1, cfg, heq ▸ hself⟩
    · obtain ⟨cpu, cfg', hold⟩ := h.key key' cpus hcpus
      exact ⟨cpu, cfg', hkeep _ hold⟩
  · rw [storeCheckpoints, Dict.get?_insert] at hcpus
    split at hcpus
    · next heq =>
      subst heq
      obtain rfl := Option.some.inj hcpus
      rw [Dict.get?_insert] at hcfgs
      split at hcfgs
      · next heq => exact ⟨cfg, heq ▸ hself⟩
      · rw [get?_getD_empty] at hcfgs
        obtain ⟨cpus, hcpus, hcfgs⟩ := Option.bind_eq_some_iff.mp hcfgs
        obtain ⟨cfg', hold⟩ := h.cpu key' cpus cpu cfgs hcpus hcfgs
        exact ⟨cfg', hkeep _ hold⟩
    · obtain ⟨cfg', hold⟩ := h.cpu key' cpus cpu cfgs hcpus hcfgs
      exact ⟨cfg', hkeep _ hold⟩

theorem Filled.foldl_store {key : Key} {cfg : Text} (l : List (Text × List ℤ)) {data : Data}
    (h : Filled data) : Filled (l.foldl (storeCheckpoints key cfg) data) := by
  induction l generalizing data with
  | nil => exact h
  | cons e l ih => exact ih (h.store key cfg e)

/-- An invariant of a loop that may raise. -/
theorem invariant_foldlM {α β : Type*} {f : β → α → Option β} {P : β → Prop}
    (hf : ∀ b a b', P b → f b a = some b' → P b') : ∀ {l : List α} {b b' : β}, P b →
    l.foldlM f b = some b' → P b'
  | [], _, _, hb, h => Option.some.inj h ▸ hb
  | a :: l, b, b', hb, h => by
    rw [List.foldlM_cons] at h
    obtain ⟨b₁, h₁, hrest⟩ := Option.bind_eq_some_iff.mp h
    exact invariant_foldlM hf (hf b a b₁ hb h₁) hrest

theorem Filled.loadFile {u : UnicodeData} {data data' : Data} {file : Text × Text} (hfilled : Filled data)
    (h : loadFile u data file = some data') : Filled data' := by
  unfold Tuner.loadFile at h
  split at h
  · exact Option.some.inj h ▸ hfilled
  · obtain ⟨checkpointData, -, rfl⟩ := Option.map_eq_some_iff.mp h
    exact hfilled.foldl_store _

theorem filled_loadAllFiles {u : UnicodeData} {dirs : List (Option Listing)} {data : Data}
    (h : loadAllFiles u dirs = some data) : Filled data := by
  refine invariant_foldlM (fun data dir data' hfilled hdir => ?_) filled_empty h
  obtain ⟨d, -, hfiles⟩ := Option.bind_eq_some_iff.mp hdir
  exact invariant_foldlM (fun _ _ _ hfilled hfile => hfilled.loadFile hfile) hfilled hfiles

/-- Values that are told apart by what they hold, and hold something. -/
theorem rel_iff_bind {α ξ υ : Type*} {r : α → α → Prop} {f : α → ξ → Option υ} {o o' : Option α}
    (hr : ∀ a a', o = some a → o' = some a' → (r a a' ↔ ∀ x, f a x = f a' x))
    (ho : ∀ a, o = some a → ∃ x, (f a x).isSome) (ho' : ∀ a, o' = some a → ∃ x, (f a x).isSome) :
    Option.Rel r o o' ↔ ∀ x, o.bind (f · x) = o'.bind (f · x) := by
  cases o with
  | none =>
    cases o' with
    | none => exact iff_of_true .none fun _ => rfl
    | some a' =>
      obtain ⟨x, hx⟩ := ho' a' rfl
      refine iff_of_false (fun h => nomatch h) fun h => ?_
      have hnone : none = f a' x := h x
      rw [← hnone] at hx
      cases hx
  | some a =>
    cases o' with
    | none =>
      obtain ⟨x, hx⟩ := ho a rfl
      refine iff_of_false (fun h => nomatch h) fun h => ?_
      have hnone : f a x = none := h x
      rw [hnone] at hx
      cases hx
    | some a' => exact Option.rel_some_some.trans (hr a a' rfl rfl)

theorem rel_eq_iff {α : Type*} {o o' : Option α} : Option.Rel Eq o o' ↔ o = o' := by
  cases o <;> cases o' <;> simp [Option.rel_some_some]

/-- Data without empty dictionaries are the same iff every slot is. -/
theorem Filled.same_iff {data data' : Data} (h : Filled data) (h' : Filled data') :
    data.Same data' ↔ ∀ slot, data.at slot = data'.at slot := by
  have hcfgs : ∀ cfgs cfgs' : Dict Text (List ℤ), dictEq Eq cfgs cfgs' ↔
      ∀ cfg, cfgs.get? cfg = cfgs'.get? cfg :=
    fun cfgs cfgs' => forall_congr' fun cfg => rel_eq_iff
  have hcpus : ∀ key cpus cpus', data.get? key = some cpus → data'.get? key = some cpus' →
      (dictEq (dictEq Eq) cpus cpus' ↔ ∀ x : Text × Text,
        (cpus.get? x.1).bind (·.get? x.2) = (cpus'.get? x.1).bind (·.get? x.2)) := by
    intro key cpus cpus' hk hk'
    rw [Prod.forall]
    refine forall_congr' fun cpu => rel_iff_bind (fun cfgs cfgs' _ _ => hcfgs cfgs cfgs') ?_ ?_
    · intro cfgs hcpu
      obtain ⟨cfg, hsome⟩ := h.cpu key cpus cpu cfgs hk hcpu
      exact ⟨cfg, by rwa [Data.at, hk, Option.bind_some, hcpu] at hsome⟩
    · intro cfgs hcpu
      obtain ⟨cfg, hsome⟩ := h'.cpu key cpus' cpu cfgs hk' hcpu
      exact ⟨cfg, by rwa [Data.at, hk', Option.bind_some, hcpu] at hsome⟩
  have hkeys : ∀ key, Option.Rel (dictEq (dictEq Eq)) (data.get? key) (data'.get? key) ↔
      ∀ x : Text × Text, data.at ⟨key, x.1, x.2⟩ = data'.at ⟨key, x.1, x.2⟩ := by
    intro key
    unfold Data.at
    simp only [Option.bind_assoc]
    let f := fun (cpus : Dict Text (Dict Text (List ℤ))) (x : Text × Text) =>
      (cpus.get? x.1).bind (·.get? x.2)
    refine rel_iff_bind (f := f) (hcpus key) ?_ ?_
    · intro cpus hk
      obtain ⟨cpu, cfg, hsome⟩ := h.key key cpus hk
      exact ⟨(cpu, cfg), by rwa [Data.at, hk] at hsome⟩
    · intro cpus hk
      obtain ⟨cpu, cfg, hsome⟩ := h'.key key cpus hk
      exact ⟨(cpu, cfg), by rwa [Data.at, hk] at hsome⟩
  constructor
  · exact fun hsame slot => (hkeys slot.key).mp (hsame slot.key) (slot.cpu, slot.cfg)
  · exact fun hat key => (hkeys key).mpr fun x => hat _

/-! ### Which data there are -/

theorem isSome_loadFile {u : UnicodeData} {data : Data} {file : Text × Text} :
    (loadFile u data file).isSome ↔
      ((parseFilename u file.1).isSome → (readCheckpoints u file.2).isSome) := by
  unfold loadFile
  cases parseFilename u file.1 with
  | none => simp
  | some p => simp

/-- A loop whose steps succeed or raise whatever went before. -/
theorem isSome_foldlM {α β : Type*} {f : β → α → Option β} {ok : α → Prop}
    (hf : ∀ b a, (f b a).isSome ↔ ok a) : ∀ (l : List α) (b : β),
    (l.foldlM f b).isSome ↔ ∀ a ∈ l, ok a
  | [], b => iff_of_true rfl fun a ha => absurd ha List.not_mem_nil
  | a :: l, b => by
    rw [List.foldlM_cons, List.forall_mem_cons, ← hf b a]
    cases f b a with
    | none => exact iff_of_false (fun h => nomatch h) fun h => nomatch h.1
    | some b' => exact (isSome_foldlM hf l b').trans (and_iff_right rfl).symm

theorem isSome_loadAllFiles {u : UnicodeData} {dirs : List (Option Listing)} :
    (loadAllFiles u dirs).isSome ↔ Readable u dirs := by
  refine isSome_foldlM (fun data dir => ?_) dirs _
  cases dir with
  | none => exact iff_of_false (fun h => nomatch h) fun h => nomatch h.choose_spec.1
  | some d =>
    have hfiles := isSome_foldlM (f := loadFile u) (fun _ _ => isSome_loadFile) d.items data
    refine Iff.trans hfiles ?_
    constructor
    · exact fun h => ⟨d, rfl, h⟩
    · rintro ⟨d', hd, h⟩
      obtain rfl := Option.some.inj hd
      exact h

theorem Readable.relisted {u : UnicodeData} {dirs dirs' : List (Option Listing)} (h : Readable u dirs)
    (hre : Relisted dirs dirs') : Readable u dirs' := by
  induction hre with
  | nil => exact h
  | cons hdir _ ih =>
    rw [Readable, List.forall_mem_cons] at h ⊢
    obtain ⟨⟨d, rfl, hread⟩, hrest⟩ := h
    refine ⟨?_, ih hrest⟩
    cases hdir with
    | some hperm => exact ⟨_, rfl, fun file hfile => hread file (hperm.mem_iff.mpr hfile)⟩

theorem Relisted.symm {dirs dirs' : List (Option Listing)} (h : Relisted dirs dirs') :
    Relisted dirs' dirs := by
  refine List.Forall₂.flip (h.imp fun a b hab => ?_)
  cases hab with
  | none => exact .none
  | some hperm => exact .some hperm.symm

theorem Relisted.reordered {dirs dirs' : List (Option Listing)} (h : Relisted dirs dirs') :
    Reordered (filesOf dirs) (filesOf dirs') := by
  induction h with
  | nil => exact .nil
  | cons hdir _ ih =>
    refine .cons ?_ ih
    cases hdir with
    | none => exact .refl _
    | some hperm => exact hperm

/-- Every order of the files is one of some listing. -/
theorem exists_relisted {dirs : List (Option Listing)} {groups : List (List (Text × Text))}
    (h : Reordered (filesOf dirs) groups) : ∃ dirs', Relisted dirs dirs' ∧ filesOf dirs' = groups := by
  induction dirs generalizing groups with
  | nil =>
    cases h
    exact ⟨[], .nil, rfl⟩
  | cons dir dirs ih =>
    obtain ⟨g, groups, hg, hrest, rfl⟩ := List.forall₂_cons_left_iff.mp h
    obtain ⟨dirs', hdirs', rfl⟩ := ih hrest
    cases dir with
    | none =>
      obtain rfl := hg.symm.eq_nil
      exact ⟨none :: dirs', .cons .none hdirs', rfl⟩
    | some d =>
      have hperm : d.items.Perm g := hg
      exact ⟨some ⟨g, (hperm.map Prod.fst).nodup_iff.mp d.nodup⟩ :: dirs', .cons (.some hperm) hdirs', rfl⟩

theorem at_loadAllFiles {u : UnicodeData} {dirs : List (Option Listing)} {data : Data}
    (h : loadAllFiles u dirs = some data) (slot : Slot) :
    data.at slot = lastWrite (checkpointsFor u) (filesOf dirs).flatten slot := by
  rw [at_loadDirs slot h]
  exact Option.or_none

/-- What can be loaded depends on the listing as what stays in the slots does. -/
theorem Readable.orderFree {u : UnicodeData} {dirs : List (Option Listing)} (hread : Readable u dirs) :
    OrderFree u dirs ↔ GroupsAgree (checkpointsFor u) (filesOf dirs) := by
  obtain ⟨data, hdata⟩ := Option.isSome_iff_exists.mp (isSome_loadAllFiles.mpr hread)
  have hat : ∀ dirs', Relisted dirs dirs' →
      (Option.Rel Data.Same (loadAllFiles u dirs) (loadAllFiles u dirs') ↔
        ∀ slot, lastWrite (checkpointsFor u) (filesOf dirs').flatten slot =
          lastWrite (checkpointsFor u) (filesOf dirs).flatten slot) := by
    intro dirs' hre
    obtain ⟨data', hdata'⟩ := Option.isSome_iff_exists.mp (isSome_loadAllFiles.mpr (hread.relisted hre))
    rw [hdata, hdata', Option.rel_some_some,
      (filled_loadAllFiles hdata).same_iff (filled_loadAllFiles hdata')]
    refine forall_congr' fun slot => ?_
    rw [at_loadAllFiles hdata, at_loadAllFiles hdata', eq_comm]
  rw [← lastWrite_flatten_iff]
  constructor
  · intro h groups hre
    obtain ⟨dirs', hdirs', rfl⟩ := exists_relisted hre
    exact (hat dirs' hdirs').mp (h dirs' hdirs')
  · exact fun h dirs' hre => (hat dirs' hre).mpr (h _ hre.reordered)

/-- **Main result.** What is loaded is the same for every listing of the
directories iff nothing can be loaded, or the files that have checkpoints for
the same slot, in a directory after which no other has any, have the same
checkpoints. -/
theorem orderFree_iff (u : UnicodeData) (dirs : List (Option Listing)) :
    OrderFree u dirs ↔ (Readable u dirs → GroupsAgree (checkpointsFor u) (filesOf dirs)) := by
  by_cases hread : Readable u dirs
  · rw [forall_prop_of_true hread, hread.orderFree]
  · refine iff_of_true (fun dirs' hre => ?_) fun h => absurd h hread
    have hnone : loadAllFiles u dirs = none :=
      Option.not_isSome_iff_eq_none.mp (mt isSome_loadAllFiles.mp hread)
    have hnone' : loadAllFiles u dirs' = none :=
      Option.not_isSome_iff_eq_none.mp fun h => hread ((isSome_loadAllFiles.mp h).relisted hre.symm)
    rw [hnone, hnone']
    exact .none

/-- Two profiles of the same guests, one with `_cc`. -/
def clash : List (Text × Text) :=
  [("linux_fft_baremetal_cache_r_baremetal_embench_crc32-C1_profile_0.txt".toList,
      "CPU0 checkpoints:\n1000\n".toList),
    ("linux_fft_baremetal_cache_r_baremetal_embench_crc32-C1_profile_0_cc.txt".toList,
      "CPU0 checkpoints:\n2000\n".toList)]

def clashSlot : Slot :=
  ⟨("fft".toList, "cache_r".toList, "crc32".toList), "CPU0".toList, interf⟩

theorem nodup_clash : (clash.map Prod.fst).Nodup := by decide +kernel

/-- Both names are read the same, so the file listed last decides. -/
theorem listing_decides :
    (clash.map fun file => checkpointsFor asciiData file clashSlot) = [some [1000], some [2000]] ∧
      ¬ OrderFree asciiData [some ⟨clash, nodup_clash⟩] := by
  have hboth : (clash.map fun file => checkpointsFor asciiData file clashSlot) =
      [some [1000], some [2000]] := by decide +kernel
  have hread : Readable asciiData [some ⟨clash, nodup_clash⟩] := fun dir hdir => by
    obtain rfl := List.mem_singleton.mp hdir
    have hall : ∀ file ∈ clash, (readCheckpoints asciiData file.2).isSome := by decide +kernel
    exact ⟨_, rfl, fun file hfile _ => hall file hfile⟩
  refine ⟨hboth, fun h => ?_⟩
  have hagree : Agree (checkpointsFor asciiData) clash clashSlot :=
    hread.orderFree.mp h [] clash [] rfl clashSlot fun _ hf => absurd hf List.not_mem_nil
  obtain ⟨hfirst, hrest⟩ := List.cons.inj hboth
  have heq := hagree _ List.mem_cons_self _ (List.mem_cons_of_mem _ List.mem_cons_self) _ _ hfirst
    (List.cons.inj hrest).1
  exact absurd heq (by decide)

end Tuner
end DaatMcs
