/-
# The cache guests of a configuration

`baremetal_cache_guests` makes an entry for each buffer size, CPU list and
operation. It goes through the numbers of CPUs, though, and looks the CPU list
up by its number: of lists of one length it always finds the first
(`lookupCpus`). So the entries are those of all triples iff CPU lists of one
length are the same list (`cacheGuests_iff`).
-/
import DaatMcs.Generator.Guests

namespace DaatMcs
namespace Guests

deriving instance DecidableEq for CacheGuest

/-- The configuration as it is read; of the keys it does not have there is
none. Its `num_cpus` is not used: `read_config` overwrites it. -/
structure BaremetalCacheConfig where
  srcDir : Option Text
  cpuIDs : Option (List (List ℕ))
  mode : Option Text
  cacheLineSize : Option ℕ
  interferenceBufferSize : Option (List Text)
  readWriteOperation : Option (List Text)

/-- An object of `baremetal_cache_guests`. -/
structure BaremetalCacheObject extends BaremetalCacheGuests where
  listNumCpus : List ℕ := []
  listGuests : List CacheGuest := []

namespace BaremetalCacheObject

/-- `read_config`, of the superclass first. -/
def readConfig (c : BaremetalCacheConfig) (o : BaremetalCacheObject) : BaremetalCacheObject :=
  let cpuIDs := c.cpuIDs.getD []
  { o with
    srcDir := c.srcDir.getD []
    cpuIDs := cpuIDs
    listNumCpus := cpuIDs.map List.length
    mode := c.mode.getD "constant".toList
    cacheLineSize := c.cacheLineSize.getD 0
    interferenceBufferSize := c.interferenceBufferSize.getD []
    readWriteOperation := c.readWriteOperation.getD [] }

/-- `self.cpu_IDs[self.num_cpus.index(cpus)]`; the index is in range after
`read_config`. -/
def lookupCpus (o : BaremetalCacheObject) (cpus : ℕ) : List ℕ := o.cpuIDs.getD (o.listNumCpus.idxOf cpus) []

/-- The body of the three loops. -/
def appendGuest (o : BaremetalCacheObject) (ibs : Text) (cpus : ℕ) (listGuests : List CacheGuest) (rw : Text) :
    List CacheGuest :=
  listGuests ++
    [{ srcDir := o.srcDir
       cacheLineSize := o.cacheLineSize
       interferenceBufferSize := ibs
       numCpus := cpus
       cpuIDs := o.lookupCpus cpus
       readWriteOperation := rw }]

/-- `get_configurations`. -/
def getConfigurations (o : BaremetalCacheObject) : BaremetalCacheObject :=
  { o with
    listGuests := o.interferenceBufferSize.foldl (fun listGuests ibs =>
      o.listNumCpus.foldl (fun listGuests cpus =>
        o.readWriteOperation.foldl (o.appendGuest ibs cpus) listGuests) listGuests) o.listGuests }

end BaremetalCacheObject

/-- `list_guests` of a fresh object after `read_config` and
`get_configurations`. -/
def cacheGuests (c : BaremetalCacheConfig) : List CacheGuest :=
  (({} : BaremetalCacheObject).readConfig c).getConfigurations.listGuests

/-- The entry of a triple: its own CPU list and the length of that. -/
def guestOf (c : BaremetalCacheConfig) (ibs : Text) (cpuIDs : List ℕ) (rw : Text) : CacheGuest where
  srcDir := c.srcDir.getD []
  cacheLineSize := c.cacheLineSize.getD 0
  interferenceBufferSize := ibs
  numCpus := cpuIDs.length
  cpuIDs := cpuIDs
  readWriteOperation := rw

/-- One entry for each triple of a buffer size, a CPU list and an operation. -/
def guestProduct (c : BaremetalCacheConfig) : List CacheGuest :=
  (c.interferenceBufferSize.getD []).flatMap fun ibs => (c.cpuIDs.getD []).flatMap fun cpuIDs =>
    (c.readWriteOperation.getD []).map (guestOf c ibs cpuIDs)

/-- The CPU list that is found for a length. -/
def firstOfLength (cpuIDs : List (List ℕ)) (n : ℕ) : List ℕ :=
  cpuIDs.getD ((cpuIDs.map List.length).idxOf n) []

/-! ### The entries -/

theorem firstOfLength_spec {cpuIDs : List (List ℕ)} {l : List ℕ} (h : l ∈ cpuIDs) :
    firstOfLength cpuIDs l.length ∈ cpuIDs ∧ (firstOfLength cpuIDs l.length).length = l.length := by
  have hlt := List.idxOf_lt_length_of_mem (List.mem_map_of_mem (f := List.length) h)
  have hget := List.getElem_idxOf hlt
  rw [List.getElem_map] at hget
  rw [List.length_map] at hlt
  rw [firstOfLength, List.getD_eq_getElem?_getD, List.getElem?_eq_getElem hlt, Option.getD_some]
  exact ⟨List.getElem_mem hlt, hget⟩

/-- What the three loops append: the entries of the configuration, as
`BaremetalCacheGuests.getConfigurations` lists them. -/
theorem BaremetalCacheObject.listGuests_getConfigurations {o : BaremetalCacheObject}
    (hnum : o.listNumCpus = o.cpuIDs.map List.length) :
    o.getConfigurations.listGuests = o.listGuests ++ o.toBaremetalCacheGuests.getConfigurations := by
  have hbody : ∀ (f : Text → CacheGuest) (l : List Text) (acc : List CacheGuest),
      l.foldl (fun acc rw => acc ++ [f rw]) acc = acc ++ l.map f := fun f l => by
    induction l with
    | nil => simp
    | cons rw l ih =>
      intro acc
      rw [List.foldl_cons, ih, List.append_assoc]
      rfl
  have hloop : ∀ {α : Type} (f : α → List CacheGuest) (l : List α) (acc : List CacheGuest),
      l.foldl (fun acc a => acc ++ f a) acc = acc ++ l.flatMap f := fun f l acc =>
    List.foldl_append_eq_append.trans (by rw [List.flatMap])
  unfold getConfigurations appendGuest BaremetalCacheGuests.getConfigurations
  simp only [hbody, hloop, lookupCpus, BaremetalGuests.numCpus, hnum]

/-- The entries of a fresh object are those of its configuration. -/
theorem cacheGuests_eq_getConfigurations (c : BaremetalCacheConfig) :
    cacheGuests c =
      (({} : BaremetalCacheObject).readConfig c).toBaremetalCacheGuests.getConfigurations := by
  rw [cacheGuests, BaremetalCacheObject.listGuests_getConfigurations rfl]
  rfl

theorem cacheGuests_eq (c : BaremetalCacheConfig) :
    cacheGuests c = (c.interferenceBufferSize.getD []).flatMap fun ibs =>
      (c.cpuIDs.getD []).flatMap fun cpuIDs => (c.readWriteOperation.getD []).map fun rw =>
        { guestOf c ibs cpuIDs rw with cpuIDs := firstOfLength (c.cpuIDs.getD []) cpuIDs.length } := by
  rw [cacheGuests_eq_getConfigurations]
  simp only [BaremetalCacheGuests.getConfigurations, BaremetalGuests.numCpus, BaremetalCacheObject.readConfig,
    List.flatMap_map]
  rfl

theorem mem_cacheGuests {c : BaremetalCacheConfig} {g : CacheGuest} : g ∈ cacheGuests c ↔
    ∃ ibs ∈ c.interferenceBufferSize.getD [], ∃ l ∈ c.cpuIDs.getD [], ∃ rw ∈ c.readWriteOperation.getD [],
      g = { guestOf c ibs l rw with cpuIDs := firstOfLength (c.cpuIDs.getD []) l.length } := by
  simp only [cacheGuests_eq, List.mem_flatMap, List.mem_map, eq_comm]

theorem mem_guestProduct {c : BaremetalCacheConfig} {g : CacheGuest} : g ∈ guestProduct c ↔
    ∃ ibs ∈ c.interferenceBufferSize.getD [], ∃ l ∈ c.cpuIDs.getD [], ∃ rw ∈ c.readWriteOperation.getD [],
      g = guestOf c ibs l rw := by
  simp only [guestProduct, List.mem_flatMap, List.mem_map, eq_comm]

/-- Where CPU lists of one length are the same, each finds itself. -/
theorem cacheGuests_eq_product {c : BaremetalCacheConfig}
    (h : ∀ l ∈ c.cpuIDs.getD [], ∀ l' ∈ c.cpuIDs.getD [], l.length = l'.length → l = l') :
    cacheGuests c = guestProduct c := by
  rw [cacheGuests_eq, guestProduct]
  refine List.flatMap_congr fun ibs _ => List.flatMap_congr fun l hl => List.map_congr_left fun rw _ => ?_
  obtain ⟨hmem, hlen⟩ := firstOfLength_spec hl
  rw [h _ hmem l hl hlen]
  rfl

/-- **Main result.** There is exactly one entry for each triple, with its own
CPU list, iff CPU lists of one length are the same list, or there are no
triples at all. -/
theorem cacheGuests_iff (c : BaremetalCacheConfig) : (cacheGuests c).Perm (guestProduct c) ↔
    c.interferenceBufferSize.getD [] = [] ∨ c.readWriteOperation.getD [] = [] ∨
      ∀ l ∈ c.cpuIDs.getD [], ∀ l' ∈ c.cpuIDs.getD [], l.length = l'.length → l = l' := by
  constructor
  · intro h
    by_contra hcon
    rw [not_or, not_or] at hcon
    obtain ⟨hibs, hrw, hcpus⟩ := hcon
    obtain ⟨ibs, hibs⟩ := List.exists_mem_of_ne_nil _ hibs
    obtain ⟨rw, hrw⟩ := List.exists_mem_of_ne_nil _ hrw
    -- the entry of a CPU list carries the list found for its length
    have hfound : ∀ l ∈ c.cpuIDs.getD [], l = firstOfLength (c.cpuIDs.getD []) l.length := by
      intro l hl
      have hmem : guestOf c ibs l rw ∈ cacheGuests c :=
        h.mem_iff.mpr (mem_guestProduct.mpr ⟨ibs, hibs, l, hl, rw, hrw, rfl⟩)
      obtain ⟨_, -, l', -, _, -, heq⟩ := mem_cacheGuests.mp hmem
      have hlen : l.length = l'.length := congrArg CacheGuest.numCpus heq
      rw [hlen]
      exact congrArg CacheGuest.cpuIDs heq
    exact hcpus fun l hl l' hl' hlen => by rw [hfound l hl, hlen, ← hfound l' hl']
  · rintro (h | h | h)
    · rw [cacheGuests_eq, guestProduct, h]
      exact .refl _
    · rw [cacheGuests_eq, guestProduct, h]
      exact .refl _
    · rw [cacheGuests_eq_product h]

/-- Of the CPU lists `[0]` and `[1]` the first is in both entries. -/
theorem cacheGuests_sameLength :
    let c : BaremetalCacheConfig := ⟨none, some [[0], [1]], none, none, some ["1M".toList], some ["read".toList]⟩
    (cacheGuests c).map CacheGuest.cpuIDs = [[0], [0]] ∧ ¬ (cacheGuests c).Perm (guestProduct c) := by
  decide

end Guests
end DaatMcs
