/-
# The configuration editor

`_generate_config` builds a configuration from the texts and the cards of the
editor, and `_load_config` rebuilds them from a configuration. The guests and
the setups are in dictionaries by the names on their cards, and the names of
the setups are also in a list, which loading does not read. So a
configuration that was generated is generated again after it was loaded iff
the names of the setup cards are distinct (`generateConfig_loadConfig_iff`);
of guests of one name the last stays either way.
-/
import DaatMcs.Gui.Cards
import DaatMcs.Lib.Dict

namespace DaatMcs
namespace Gui

/-! ### Configurations -/

structure Paths where
  rootDir : Text
  configsDir : Text
  configTemplates : Text
  imgsDir : Text
  deriving DecidableEq

structure Setups where
  benchmark : Option Text
  listSetups : Option (List Text)
  deriving DecidableEq

structure Bitstream where
  coherency : Option ℤ
  path : Option Text
  ltx : Option Text
  deriving DecidableEq

structure Hardware where
  platform : Option Text
  bitstreams : Option (List Bitstream)
  tclScript : Option Text
  deriving DecidableEq

structure Hypervisor where
  name : Text
  srcDir : Text
  deriving DecidableEq

/-- A configuration file; a key that is not there is `none`. -/
structure Config where
  paths : Option Paths
  setups : Option Setups
  guests : Option (Dict Text GuestConfig)
  hardware : Option Hardware
  hypervisor : Option Hypervisor
  setupsConfigs : Option (Dict Text SetupConfig)
  deriving DecidableEq

/-! ### The editor -/

structure Editor where
  benchmarkEdit : Text
  tclEdit : Text
  bit0Edit : Text
  ltx0Edit : Text
  bit1Edit : Text
  ltx1Edit : Text
  guestCards : List GuestCard
  setupCards : List SetupCard

/-- The entry of a guest card in `guests_dict`. -/
def GuestCard.entry (u : UnicodeData) (g : GuestCard) : Option (Text × GuestConfig) :=
  (g.getConfig u).map (g.nameEdit, ·)

/-- The entry of a setup card in `setups_cfg_dict`. -/
def SetupCard.entry (s : SetupCard) : Text × SetupConfig := (s.nameEdit, s.getConfig)

/-- `_generate_config`, up to the dump; none where `int` raises. -/
def generateConfig (u : UnicodeData) (e : Editor) : Option Config := do
  let guests ← e.guestCards.mapM (GuestCard.entry u)
  some
    { paths := some
        { rootDir := ".".toList
          configsDir := "/configs".toList
          configTemplates := "/setup_generator/config_templates".toList
          imgsDir := "./wrkdir_imgs".toList }
      setups := some
        { benchmark := some e.benchmarkEdit
          listSetups := some (e.setupCards.map SetupCard.nameEdit) }
      guests := some (Dict.ofList guests)
      hardware := some
        { platform := some "zcu104".toList
          bitstreams := some
            [{ coherency := some 0, path := some e.bit0Edit, ltx := some e.ltx0Edit },
             { coherency := some 1, path := some e.bit1Edit, ltx := some e.ltx1Edit }]
          tclScript := some e.tclEdit }
      hypervisor := some
        { name := "bao".toList
          srcDir := "/media/diogo/rootfs/CCI_Interference/hypervisor/bao/bao-hypervisor".toList }
      setupsConfigs := some (Dict.ofList (e.setupCards.map SetupCard.entry)) }

def loadBitstream (e : Editor) (b : Bitstream) : Editor :=
  if b.coherency = some 0 then { e with bit0Edit := b.path.getD [], ltx0Edit := b.ltx.getD [] }
  else if b.coherency = some 1 then { e with bit1Edit := b.path.getD [], ltx1Edit := b.ltx.getD [] }
  else e

/-- `_add_guest`, and `load_config` of the new card. -/
def loadGuest (e : Editor) (entry : Text × GuestConfig) : Editor :=
  { e with guestCards := e.guestCards ++ [(GuestCard.new entry.1).loadConfig entry.2] }

/-- `_add_setup`, with the guests there are, and `load_config` of the new card. -/
def loadSetup (e : Editor) (entry : Text × SetupConfig) : Editor :=
  let available := e.guestCards.map GuestCard.nameEdit
  { e with setupCards := e.setupCards ++ [(SetupCard.new entry.1 available).loadConfig entry.2] }

/-- `_load_config` of a file with the configuration, up to the last call. -/
def loadConfig (e : Editor) (config : Config) : Editor :=
  let e := { e with
    benchmarkEdit := (config.setups.bind Setups.benchmark).getD "CCI_microbenchmarks".toList }
  let hw := config.hardware.getD ⟨none, none, none⟩
  let e := { e with tclEdit := hw.tclScript.getD [] }
  let e := (hw.bitstreams.getD []).foldl loadBitstream e
  let e := ((config.guests.map Dict.items).getD []).foldl loadGuest { e with guestCards := [] }
  ((config.setupsConfigs.map Dict.items).getD []).foldl loadSetup { e with setupCards := [] }

/-! ### What loading leaves -/

theorem foldl_loadGuest (items : List (Text × GuestConfig)) (e : Editor) :
    items.foldl loadGuest e =
      { e with guestCards := e.guestCards ++ items.map fun x => (GuestCard.new x.1).loadConfig x.2 } := by
  induction items generalizing e with
  | nil => simp
  | cons x items ih =>
    rw [List.foldl_cons, ih]
    simp [loadGuest]

theorem foldl_loadSetup (items : List (Text × SetupConfig)) (e : Editor) :
    items.foldl loadSetup e =
      { e with
        setupCards := e.setupCards ++ items.map fun x =>
          (SetupCard.new x.1 (e.guestCards.map GuestCard.nameEdit)).loadConfig x.2 } := by
  induction items generalizing e with
  | nil => simp
  | cons x items ih =>
    rw [List.foldl_cons, ih]
    simp [loadSetup]

/-! ### Generated, loaded and generated again -/

section Again

variable {u : UnicodeData}

/-- The card that an entry of a guest is loaded to gives the entry again. -/
theorem entry_loadGuest {cards : List GuestCard} {guests : List (Text × GuestConfig)}
    (h : cards.mapM (GuestCard.entry u) = some guests) {x : Text × GuestConfig} (hx : x ∈ guests) :
    GuestCard.entry u ((GuestCard.new x.1).loadConfig x.2) = some x := by
  obtain ⟨g, -, hg⟩ := exists_of_mem_mapM h hx
  obtain ⟨cfg, hcfg, rfl⟩ := Option.map_eq_some_iff.mp hg
  show ((GuestCard.loadConfig _ cfg).getConfig u).map (g.nameEdit, ·) = some (g.nameEdit, cfg)
  rw [GuestCard.getConfig_loadConfig hcfg]
  rfl

theorem entry_loadSetup {cards : List SetupCard} {x : Text × SetupConfig} (hx : x ∈ cards.map SetupCard.entry)
    (available : List Text) : SetupCard.entry ((SetupCard.new x.1 available).loadConfig x.2) = x := by
  obtain ⟨s, -, rfl⟩ := List.mem_map.mp hx
  exact Prod.ext rfl (SetupCard.getConfig_loadConfig s _)

/-- The entries of the guests, loaded to new cards, are collected again. -/
theorem mapM_entry_loadGuest {cards : List GuestCard} {guests : List (Text × GuestConfig)}
    (h : cards.mapM (GuestCard.entry u) = some guests) :
    ((Dict.ofList guests).items.map fun x => (GuestCard.new x.1).loadConfig x.2).mapM (GuestCard.entry u) =
      some (Dict.ofList guests).items := by
  rw [mapM_eq_some_iff, List.forall₂_map_left_iff, List.forall₂_same]
  exact fun x hx => entry_loadGuest h (Dict.mem_of_mem_ofList hx)

theorem map_entry_loadSetup (cards : List SetupCard) (available : List Text) :
    ((Dict.ofList (cards.map SetupCard.entry)).items.map fun x =>
      (SetupCard.new x.1 available).loadConfig x.2).map SetupCard.entry =
        (Dict.ofList (cards.map SetupCard.entry)).items := by
  rw [List.map_map]
  conv_rhs => rw [← List.map_id (Dict.ofList (cards.map SetupCard.entry)).items]
  exact List.map_congr_left fun x hx => entry_loadSetup (Dict.mem_of_mem_ofList hx) available

/-- The names of the cards a dictionary is loaded to are its keys. -/
theorem map_nameEdit_loadSetup (d : Dict Text SetupConfig) (available : List Text) :
    (d.items.map fun x => (SetupCard.new x.1 available).loadConfig x.2).map SetupCard.nameEdit = d.keys := by
  rw [List.map_map]
  rfl

/-- The cards, the texts and the guests of the editor are those of the
configuration; nothing is left of what was there. -/
theorem loadConfig_generated {e : Editor} {c : Config} (h : generateConfig u e = some c) (e' : Editor) :
    ∃ guests, e.guestCards.mapM (GuestCard.entry u) = some guests ∧
      loadConfig e' c =
        let guestCards := (Dict.ofList guests).items.map fun x => (GuestCard.new x.1).loadConfig x.2
        { e with
          guestCards := guestCards
          setupCards := (Dict.ofList (e.setupCards.map SetupCard.entry)).items.map fun x =>
            (SetupCard.new x.1 (guestCards.map GuestCard.nameEdit)).loadConfig x.2 } := by
  unfold generateConfig at h
  obtain ⟨guests, hguests, h⟩ := Option.bind_eq_some_iff.mp h
  obtain rfl := Option.some.inj h
  refine ⟨guests, hguests, ?_⟩
  unfold loadConfig
  simp only [Option.bind_some, Option.getD_some, Option.map_some, foldl_loadGuest, foldl_loadSetup,
    List.foldl_cons, List.foldl_nil, List.nil_append]
  rfl

/-- A configuration is generated again with the setups in the order of their
dictionary. -/
theorem generateConfig_loadConfig {e : Editor} {c : Config} (h : generateConfig u e = some c) (e' : Editor) :
    generateConfig u (loadConfig e' c) = some { c with
      setups := some
        { benchmark := some e.benchmarkEdit
          listSetups := some (Dict.ofList (e.setupCards.map SetupCard.entry)).keys } } := by
  obtain ⟨guests, hguests, hload⟩ := loadConfig_generated h e'
  unfold generateConfig at h
  rw [hguests] at h
  obtain rfl := Option.some.inj h
  rw [hload]
  unfold generateConfig
  dsimp only
  rw [mapM_entry_loadGuest hguests, map_nameEdit_loadSetup, map_entry_loadSetup, Option.bind_eq_bind,
    Option.bind_some, Dict.ofList_items, Dict.ofList_items]

/-- **Main result.** A configuration that was generated is generated again
after it was loaded, in whatever state the editor is, iff the names of the
setup cards it was generated from are distinct. -/
theorem generateConfig_loadConfig_iff {e : Editor} {c : Config} (h : generateConfig u e = some c) (e' : Editor) :
    generateConfig u (loadConfig e' c) = some c ↔ (e.setupCards.map SetupCard.nameEdit).Nodup := by
  have hnames : (e.setupCards.map SetupCard.entry).map Prod.fst = e.setupCards.map SetupCard.nameEdit := by
    rw [List.map_map]
    rfl
  have hsetups : c.setups = some
      { benchmark := some e.benchmarkEdit
        listSetups := some (e.setupCards.map SetupCard.nameEdit) } := by
    unfold generateConfig at h
    obtain ⟨guests, -, h⟩ := Option.bind_eq_some_iff.mp h
    obtain rfl := Option.some.inj h
    rfl
  rw [generateConfig_loadConfig h, ← hnames, ← Dict.keys_ofList_iff, hnames]
  constructor
  · intro heq
    have hlist := congrArg Config.setups (Option.some.inj heq)
    rw [hsetups] at hlist
    exact Option.some.inj (congrArg Setups.listSetups (Option.some.inj hlist))
  · intro hkeys
    rw [hkeys, ← hsetups]

end Again

/-- An editor with two guests of one name, and a setup for them. -/
def sample : Editor where
  benchmarkEdit := "CCI_microbenchmarks".toList
  tclEdit := "getwaves.tcl".toList
  bit0Edit := "noncoh.bit".toList
  ltx0Edit := []
  bit1Edit := "coh.bit".toList
  ltx1Edit := []
  guestCards := [GuestCard.new "baremetal_cci".toList, GuestCard.new "baremetal_cci".toList]
  setupCards := [SetupCard.new "cci_baremetal".toList ["baremetal_cci".toList]]

/-- The same with one guest changed, and two setups, one of them changed. -/
def edited : Editor :=
  { sample with
    guestCards :=
      [{ GuestCard.new "baremetal_cci".toList with
          srcEdit := "../guests/baremetal".toList
          cpuDmaEdit := "1, 3".toList
          cbRead := false
          cbCoh := false },
        GuestCard.new "baremetal_cci".toList]
    setupCards :=
      [{ SetupCard.new "cci_colors".toList ["baremetal_cci".toList] with
          logPortsEdit := "/dev/ttyUSB0, ,/dev/ttyUSB1".toList
          cbColoring := true },
        SetupCard.new "cci_baremetal".toList ["baremetal_cci".toList, "linux".toList]] }

/-- What was generated is loaded over another configuration. -/
theorem generateConfig_loadConfig_edited : ∃ c, generateConfig asciiData edited = some c ∧
    generateConfig asciiData sample ≠ some c ∧ generateConfig asciiData (loadConfig sample c) = some c := by
  obtain ⟨c, hc, hne⟩ : ∃ c, generateConfig asciiData edited = some c ∧ generateConfig asciiData sample ≠ some c :=
    ⟨_, rfl, by decide⟩
  exact ⟨c, hc, hne, (generateConfig_loadConfig_iff hc sample).mpr (by decide)⟩

/-- Two setups of one name: after loading there is one. -/
theorem not_generateConfig_loadConfig_twice :
    ∃ c, generateConfig asciiData { sample with setupCards := sample.setupCards ++ sample.setupCards } = some c ∧
      generateConfig asciiData (loadConfig sample c) ≠ some c := by
  refine ⟨_, rfl, ?_⟩
  decide

end Gui
end DaatMcs
