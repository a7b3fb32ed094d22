/-
# The decision tree of a benchmark

One loop for each CPU adds a node for every configuration that has a class
there, and the edge into it from the configuration's node of the layer before
where the classes so far are acceptable. `accepts_iff` reads the tree back: an
acceptable path for a configuration is three acceptable classes.
-/
import DaatMcs.Lib.DiGraph
import DaatMcs.Tuner.Matrices

namespace DaatMcs
namespace Tuner

/-! ### The graph -/

/-- What of the style the tree uses. -/
structure TreesStyle where
  nodeAlphaOk : ℚ
  nodeAlphaBad : ℚ
  nodeAlphaShadow : ℚ

/-- The data of a node; the root has no class. -/
structure NodeData where
  layer : ℕ
  label : Text
  nodeAlpha : ℚ
  cls : Option ℕ
deriving Inhabited

abbrev Tree := DiGraph Text NodeData ℕ

def root : Text := "ROOT".toList

def layerName : Cpu → Text
  | .cpu0 => "L0_".toList
  | .cpu1 => "L1_".toList
  | .cpu2 => "L2_".toList

/-- The name of a configuration's node in a CPU's layer. -/
def nodeName (cpu : Cpu) (cfg : Text) : Text := layerName cpu ++ cfg

/-- `{cfg_list[i]: c[i] ..}` of a CPU's column. -/
def classesOf (classByCpu : Cpu → Matrix ℕ) (ebIdx : ℕ) (cfgList : List Text) (cpu : Cpu) :
    Dict Text (Option ℕ) :=
  .ofList (cfgList.zipIdx.map fun e => (e.1, (classByCpu cpu).at e.2 ebIdx))

/-- `cls.get(cfg)`. -/
def getClass (cls : Dict Text (Option ℕ)) (cfg : Text) : Option ℕ := (cls.get? cfg).join

/-- `k is not None and k <= 1`. -/
def acceptable (k : Option ℕ) : Bool := k.any (· ≤ 1)

def alphaOf (style : TreesStyle) (k : ℕ) : ℚ := if k ≤ 1 then style.nodeAlphaOk else style.nodeAlphaBad

def addCpu0 (style : TreesStyle) (cls0 : Dict Text (Option ℕ)) (G : Tree) (cfg : Text) : Tree :=
  match getClass cls0 cfg with
  | none => G
  | some k0 =>
    (G.addNode (nodeName .cpu0 cfg) ⟨1, cfgLabel cfg, alphaOf style k0, some k0⟩).addEdge
      root (nodeName .cpu0 cfg) k0

def addCpu1 (style : TreesStyle) (cls0 cls1 : Dict Text (Option ℕ)) (G : Tree) (cfg : Text) : Tree :=
  match getClass cls1 cfg with
  | none => G
  | some k1 =>
    let k0 := getClass cls0 cfg
    let shadow := k0 = none ∨ k0 = some 2
    let G' := G.addNode (nodeName .cpu1 cfg)
      ⟨2, cfgLabel cfg, if shadow then style.nodeAlphaShadow else alphaOf style k1,
        some (if shadow then 2 else k1)⟩
    if acceptable k0 then G'.addEdge (nodeName .cpu0 cfg) (nodeName .cpu1 cfg) k1 else G'

def addCpu2 (style : TreesStyle) (cls0 cls1 cls2 : Dict Text (Option ℕ)) (G : Tree) (cfg : Text) :
    Tree :=
  match getClass cls2 cfg with
  | none => G
  | some k2 =>
    let reachable := acceptable (getClass cls0 cfg) ∧ acceptable (getClass cls1 cfg)
    let G' := G.addNode (nodeName .cpu2 cfg)
      ⟨3, cfgLabel cfg, if reachable then alphaOf style k2 else style.nodeAlphaShadow,
        some (if reachable then k2 else 2)⟩
    if reachable then G'.addEdge (nodeName .cpu1 cfg) (nodeName .cpu2 cfg) k2 else G'

/-- The three loops over the configurations. -/
def buildGraph (style : TreesStyle) (cls : Cpu → Dict Text (Option ℕ)) (cfgList : List Text) :
    Tree :=
  let G := DiGraph.empty.addNode root ⟨0, [], 1, none⟩
  let G := cfgList.foldl (addCpu0 style (cls .cpu0)) G
  let G := cfgList.foldl (addCpu1 style (cls .cpu0) (cls .cpu1)) G
  cfgList.foldl (addCpu2 style (cls .cpu0) (cls .cpu1) (cls .cpu2)) G

/-- The tree of the benchmark with its name and the configurations in order;
none where the benchmark's index is out of range. -/
def buildDecisionTreeForBenchmark (u : UnicodeData) (classByCpu : Cpu → Matrix ℕ) (ebIdx : ℕ)
    (cfgList embenchList : List Text) (style : TreesStyle) : Option (Tree × Text × List Text) :=
  (embenchList[ebIdx]?).map fun ebName =>
    (buildGraph style (classesOf classByCpu ebIdx cfgList) cfgList, ebName, orderCfgList u cfgList)

/-- There is a path from the root through the configuration's nodes, and its
edges have acceptable classes. -/
def accepts (G : Tree) (cfg : Text) : Prop :=
  ∃ k0 k1 k2, G.edges.get? (root, nodeName .cpu0 cfg) = some k0 ∧
    G.edges.get? (nodeName .cpu0 cfg, nodeName .cpu1 cfg) = some k1 ∧
    G.edges.get? (nodeName .cpu1 cfg, nodeName .cpu2 cfg) = some k2 ∧ k0 ≤ 1 ∧ k1 ≤ 1 ∧ k2 ≤ 1

/-! ### Its edges -/

/-- Where the edge of a configuration into a CPU's layer is stored. -/
def edgeKey : Cpu → Text → Text × Text
  | .cpu0, cfg => (root, nodeName .cpu0 cfg)
  | .cpu1, cfg => (nodeName .cpu0 cfg, nodeName .cpu1 cfg)
  | .cpu2, cfg => (nodeName .cpu1 cfg, nodeName .cpu2 cfg)

/-- The CPUs whose classes an edge into a layer depends on. -/
def before : Cpu → List Cpu
  | .cpu0 => []
  | .cpu1 => [.cpu0]
  | .cpu2 => [.cpu0, .cpu1]

theorem nodeName_inj {cpu cpu' : Cpu} {cfg cfg' : Text} (h : nodeName cpu cfg = nodeName cpu' cfg') :
    cpu = cpu' ∧ cfg = cfg' := by
  have hlength : (layerName cpu).length = (layerName cpu').length := by
    cases cpu <;> cases cpu' <;> decide
  obtain ⟨hlayer, hcfg⟩ := List.append_inj h hlength
  refine ⟨?_, hcfg⟩
  revert hlayer
  cases cpu <;> cases cpu' <;> decide

theorem edgeKey_snd (cpu : Cpu) (cfg : Text) : (edgeKey cpu cfg).2 = nodeName cpu cfg := by
  cases cpu <;> rfl

section Edges

variable (style : TreesStyle) (cls : Cpu → Dict Text (Option ℕ))

/-- The edge a turn of a CPU's loop adds. -/
def edgeOf (cpu : Cpu) (cfg : Text) : Option ((Text × Text) × ℕ) :=
  if ∀ c ∈ before cpu, acceptable (getClass (cls c) cfg) then
    (getClass (cls cpu) cfg).map fun k => (edgeKey cpu cfg, k)
  else none

theorem edges_addCpu0 (G : Tree) (cfg : Text) :
    (addCpu0 style (cls .cpu0) G cfg).edges = G.edges.update (edgeOf cls .cpu0 cfg).toList := by
  unfold addCpu0 edgeOf
  cases getClass (cls .cpu0) cfg <;> simp [before, edgeKey, Dict.update]

theorem edges_addCpu1 (G : Tree) (cfg : Text) :
    (addCpu1 style (cls .cpu0) (cls .cpu1) G cfg).edges =
      G.edges.update (edgeOf cls .cpu1 cfg).toList := by
  unfold addCpu1 edgeOf
  cases getClass (cls .cpu1) cfg with
  | none => simp [Dict.update]
  | some k1 =>
    by_cases h : acceptable (getClass (cls .cpu0) cfg) <;> simp [h, before, edgeKey, Dict.update]

theorem edges_addCpu2 (G : Tree) (cfg : Text) :
    (addCpu2 style (cls .cpu0) (cls .cpu1) (cls .cpu2) G cfg).edges =
      G.edges.update (edgeOf cls .cpu2 cfg).toList := by
  unfold addCpu2 edgeOf
  cases getClass (cls .cpu2) cfg with
  | none => simp [Dict.update]
  | some k2 =>
    by_cases h : acceptable (getClass (cls .cpu0) cfg) ∧ acceptable (getClass (cls .cpu1) cfg) <;>
      simp [h, before, edgeKey, Dict.update]

/-- All the edges, in the order they are stored. -/
theorem edges_buildGraph (cfgList : List Text) :
    (buildGraph style cls cfgList).edges =
      .ofList (cpuSequence.flatMap fun cpu => cfgList.filterMap (edgeOf cls cpu)) := by
  simp only [buildGraph, DiGraph.edges_foldl (edges_addCpu2 style cls),
    DiGraph.edges_foldl (edges_addCpu1 style cls), DiGraph.edges_foldl (edges_addCpu0 style cls),
    DiGraph.edges_addNode, ← Dict.update_append]
  simp only [cpuSequence, List.flatMap_cons, List.flatMap_nil, List.append_nil, List.append_assoc]
  rfl

variable {style cls}

theorem edgeOf_eq_some {cpu : Cpu} {cfg : Text} {e : (Text × Text) × ℕ} :
    edgeOf cls cpu cfg = some e ↔
      (∀ c ∈ before cpu, acceptable (getClass (cls c) cfg)) ∧ e.1 = edgeKey cpu cfg ∧
        getClass (cls cpu) cfg = some e.2 := by
  unfold edgeOf
  split
  · next h =>
    rw [Option.map_eq_some_iff, and_iff_right h]
    constructor
    · rintro ⟨k, hk, rfl⟩
      exact ⟨rfl, hk⟩
    · rintro ⟨hkey, hk⟩
      exact ⟨e.2, hk, by rw [← hkey]⟩
  · next h => simp [h]

/-- A configuration's edge is the one of its own turn. -/
theorem get?_edges {cfgList : List Text} (cpu : Cpu) {cfg : Text} {k : ℕ} (hcfg : cfg ∈ cfgList) :
    (buildGraph style cls cfgList).edges.get? (edgeKey cpu cfg) = some k ↔
      (∀ c ∈ before cpu, acceptable (getClass (cls c) cfg)) ∧ getClass (cls cpu) cfg = some k := by
  have hmem : ∀ e, e ∈ (cpuSequence.flatMap fun cpu => cfgList.filterMap (edgeOf cls cpu)) ↔
      ∃ cpu, ∃ cfg ∈ cfgList, edgeOf cls cpu cfg = some e := fun e => by
    simp only [List.mem_flatMap, List.mem_filterMap, mem_cpuSequence, true_and]
  have hown : ∀ {cpu cpu' cfg cfg'}, edgeKey cpu cfg = edgeKey cpu' cfg' → cpu = cpu' ∧ cfg = cfg' :=
    fun {cpu cpu' cfg cfg'} h => nodeName_inj (by rw [← edgeKey_snd, h, edgeKey_snd])
  rw [Dict.get?_eq_some, edges_buildGraph, Dict.mem_ofList_of_agree, hmem]
  · constructor
    · rintro ⟨cpu', cfg', -, hedge⟩
      obtain ⟨hreached, hkey, hk⟩ := edgeOf_eq_some.mp hedge
      obtain ⟨rfl, rfl⟩ := hown hkey
      exact ⟨hreached, hk⟩
    · rintro ⟨hreached, hk⟩
      exact ⟨cpu, cfg, hcfg, edgeOf_eq_some.mpr ⟨hreached, rfl, hk⟩⟩
  · intro e he e' he' hkey
    obtain ⟨cpu₁, cfg₁, -, h₁⟩ := (hmem e).mp he
    obtain ⟨cpu₂, cfg₂, -, h₂⟩ := (hmem e').mp he'
    rw [(edgeOf_eq_some.mp h₁).2.1, (edgeOf_eq_some.mp h₂).2.1] at hkey
    obtain ⟨rfl, rfl⟩ := hown hkey
    exact Option.some.inj (h₁.symm.trans h₂)

theorem acceptable_iff {o : Option ℕ} : acceptable o = true ↔ ∃ k, o = some k ∧ k ≤ 1 := by
  cases o <;> simp [acceptable]

/-- An acceptable path is three acceptable classes. -/
theorem accepts_iff {cfgList : List Text} {cfg : Text} (hcfg : cfg ∈ cfgList) :
    accepts (buildGraph style cls cfgList) cfg ↔
      ∀ cpu, ∃ k, getClass (cls cpu) cfg = some k ∧ k ≤ 1 := by
  unfold accepts
  constructor
  · rintro ⟨k0, k1, k2, h0, h1, h2, hk0, hk1, hk2⟩ cpu
    cases cpu with
    | cpu0 => exact ⟨k0, ((get?_edges .cpu0 hcfg).mp h0).2, hk0⟩
    | cpu1 => exact ⟨k1, ((get?_edges .cpu1 hcfg).mp h1).2, hk1⟩
    | cpu2 => exact ⟨k2, ((get?_edges .cpu2 hcfg).mp h2).2, hk2⟩
  · intro h
    obtain ⟨k0, h0, hk0⟩ := h .cpu0
    obtain ⟨k1, h1, hk1⟩ := h .cpu1
    obtain ⟨k2, h2, hk2⟩ := h .cpu2
    have hreached : ∀ c, acceptable (getClass (cls c) cfg) := fun c => acceptable_iff.mpr (h c)
    exact ⟨k0, k1, k2, (get?_edges .cpu0 hcfg).mpr ⟨fun c _ => hreached c, h0⟩,
      (get?_edges .cpu1 hcfg).mpr ⟨fun c _ => hreached c, h1⟩,
      (get?_edges .cpu2 hcfg).mpr ⟨fun c _ => hreached c, h2⟩, hk0, hk1, hk2⟩

end Edges

/-! ### Its classes -/

/-- The tree's class of a configuration is its entry of the matrix. -/
theorem getClass_classesOf {classByCpu : Cpu → Matrix ℕ} {cfgList : List Text} {i ebIdx : ℕ}
    {cfg : Text} {cpu : Cpu} (hnodup : cfgList.Nodup) (hcfg : cfgList[i]? = some cfg) :
    getClass (classesOf classByCpu ebIdx cfgList cpu) cfg = (classByCpu cpu).at i ebIdx := by
  have hmem : ∀ e : Text × Option ℕ, e ∈ (cfgList.zipIdx.map fun e =>
      (e.1, (classByCpu cpu).at e.2 ebIdx)) ↔
        ∃ n : ℕ, cfgList[n]? = some e.1 ∧ e.2 = (classByCpu cpu).at n ebIdx := fun e => by
    simp only [List.mem_map, Prod.exists, List.mk_mem_zipIdx_iff_getElem?]
    constructor
    · rintro ⟨c, n, hn, rfl⟩
      exact ⟨n, hn, rfl⟩
    · rintro ⟨n, hn, he⟩
      exact ⟨e.1, n, hn, by rw [← he]⟩
  have hsame : ∀ {n n' : ℕ} {c : Text}, cfgList[n]? = some c → cfgList[n']? = some c → n = n' :=
    fun {n n' c} hn hn' => (List.getElem?_inj (List.getElem?_eq_some_iff.mp hn).1 hnodup).mp
      (hn.trans hn'.symm)
  have hget : (classesOf classByCpu ebIdx cfgList cpu).get? cfg =
      some ((classByCpu cpu).at i ebIdx) := by
    rw [Dict.get?_eq_some, classesOf, Dict.mem_ofList_of_agree, hmem]
    · exact ⟨i, hcfg, rfl⟩
    · intro e he e' he' hkey
      obtain ⟨n, hn, hv⟩ := (hmem e).mp he
      obtain ⟨n', hn', hv'⟩ := (hmem e').mp he'
      obtain rfl := hsame hn (hkey ▸ hn')
      exact Prod.ext hkey (hv.trans hv'.symm)
  rw [getClass, hget, Option.join_some]

end Tuner
end DaatMcs
